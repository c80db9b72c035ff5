/-
# `ChrDivSpec` — division of decimal strings is Euclidean

One subtraction takes a multiple of the divisor off a number (`subRow_spec`), a `do`
loop its greatest multiple (`subWhile_spec`), and a round of the division keeps
`Dividing`; every second round at least shortens the rest (`divLoop_spec`).

`chrDiv_euclid`: the quotient truncated toward zero and the remainder with the sign
of the dividend end up in the two buffers, which keep their lengths, where the copy
of the dividend fits in `malc_limit` or is not needed.
-/
import Unisym.Text.ChrDiv

namespace Unisym.Text

open Digits List

/-! ## `DigDec` subtracts -/

theorem digit_less_one : ∀ d < 10,
    (digitChar d ≤ 48 ↔ d = 0) ∧ (d ≠ 0 → digitChar d - 1 = digitChar (d - 1)) ∧
      (digitChar 0 - 1 + 10 = digitChar 9) := by
  decide

theorem digit_less : ∀ d < 10, ∀ e < 10,
    (digitChar d - (digitChar e - 48) ≥ 48 ↔ e ≤ d) ∧
      (e ≤ d → digitChar d - (digitChar e - 48) = digitChar (d - e)) ∧
      (d < e → digitChar d - (digitChar e - 48) + 10 = digitChar (d + 10 - e)) := by
  decide

/-- The cells of digits whose number is smaller by `d`. -/
def Lowered (p : Cells) (xs : List Nat) (post : Cells) (d : Nat) (r : Option Cells) : Prop :=
  ∃ ys, r = some (p ++ (digitCells ys ++ post)) ∧ Decimal ys ∧ ys.length = xs.length ∧
    value 10 ys + d = value 10 xs

theorem Lowered.concat {p : Cells} {us : List Nat} {d e n k : Nat} {post : Cells} {r : Option Cells}
    (h : Lowered p us (some (digitChar e) :: post) n r) (he : e < 10)
    (hval : ∀ v, v + n = value 10 us → v * 10 + e + k = value 10 us * 10 + d) : Lowered p (us ++ [d]) post k r := by
  obtain ⟨ys, rfl, hys, hylen, hyval⟩ := h
  refine ⟨ys ++ [e], by rw [digitCells_concat], decimal_append.mpr ⟨hys, decimal_cons.mpr
    ⟨he, Decimal.nil⟩⟩, ?_, ?_⟩
  · rw [length_append, length_append, hylen]
    rfl
  · rw [value_concat, value_concat]
    exact hval _ hyval

theorem lowered_self {p : Cells} {us : List Nat} (hus : Decimal us) (post : Cells) :
    Lowered p us post 0 (some (p ++ (digitCells us ++ post))) :=
  ⟨us, rfl, hus, rfl, rfl⟩

theorem borrowLeft_spec (p : Cells) (us : List Nat) (d : Nat) (post : Cells) (hds : Decimal (us ++ [d]))
    (hpos : 1 ≤ value 10 (us ++ [d])) :
    Lowered p (us ++ [d]) post 1 (borrowLeft (p.length + us.length) (p ++ (digitCells (us ++ [d]) ++ post))) := by
  obtain ⟨hus, hd⟩ := decimal_append.mp hds
  obtain ⟨hd, -⟩ := decimal_cons.mp hd
  obtain ⟨hzero, hother, hnine⟩ := digit_less_one d hd
  rw [borrowLeft, cellAt_digit, digitCells_concat]
  dsimp only
  rw [value_concat] at hpos
  by_cases h0 : d = 0
  · -- a zero: the walk goes on with the digits before it
    subst h0
    rw [if_pos (hzero.mpr rfl), hnine, put_behind]
    cases us using List.reverseRecOn with
    | nil =>
      rw [value_nil] at hpos
      omega
    | append_singleton us u =>
      rw [length_append, length_singleton, ← Nat.add_assoc]
      exact (borrowLeft_spec p us u (some (digitChar 9) :: post) hus (by omega)).concat (by decide)
        fun v hv => by omega
  · rw [if_neg (fun h => h0 (hzero.mp h)), hother h0, put_behind]
    exact (lowered_self hus _).concat (by omega) fun v hv => by omega
termination_by us.length

/-- `DigDec` subtracts from the digits that end at its place. -/
theorem digDec_last (p : Cells) (us : List Nat) (d e : Nat) (post : Cells)
    (hds : Decimal (us ++ [d])) (he : e < 10) (hle : e ≤ value 10 (us ++ [d])) :
    Lowered p (us ++ [d]) post e
      (digDec (digitChar e) (p.length + us.length) (p ++ (digitCells (us ++ [d]) ++ post))) := by
  obtain ⟨hus, hd⟩ := decimal_append.mp hds
  obtain ⟨hd, -⟩ := decimal_cons.mp hd
  obtain ⟨hlarge, hdiff, hunder⟩ := digit_less d hd e he
  rw [digDec, cellAt_digit, digitCells_concat]
  dsimp only
  rw [put_behind]
  dsimp only
  rw [value_concat] at hle
  by_cases hed : e ≤ d
  · rw [if_pos (hlarge.mpr hed), hdiff hed]
    exact (lowered_self hus _).concat (by omega) fun v hv => by omega
  · rw [if_neg (fun h => hed (hlarge.mp h)), hunder (by omega), put_behind]
    -- too small: one is borrowed from the digits before
    cases us using List.reverseRecOn with
    | nil =>
      rw [value_nil] at hle
      omega
    | append_singleton us u =>
      rw [length_append, length_singleton, ← Nat.add_assoc]
      exact (borrowLeft_spec p us u (some (digitChar (d + 10 - e)) :: post) hus (by omega)).concat (by omega)
        fun v hv => by omega

/-- `DigDec` at the place `k` from the right subtracts `e * 10 ^ k`. -/
theorem digDec_spec (p : Cells) {ws : List Nat} {e k : Nat} (place : Nat) (post : Cells) (hws : Decimal ws)
    (he : e < 10) (hplace : place + k + 1 = p.length + ws.length) (hk : k < ws.length)
    (hle : e * 10 ^ k ≤ value 10 ws) :
    Lowered p ws post (e * 10 ^ k)
      (digDec (digitChar e) place (p ++ (digitCells ws ++ post))) := by
  obtain ⟨us, d, vs, rfl, rfl⟩ := exists_place hk
  obtain ⟨hus, hvs⟩ := decimal_append.mp hws
  have hlen : ((us ++ [d]) ++ vs).length = us.length + 1 + vs.length := by
    rw [length_append, length_append, length_singleton]
  have hpos : 0 < 10 ^ vs.length := Nat.pow_pos (by decide)
  have hlt := value_lt (b := 10) (by decide) hvs
  rw [hlen] at hplace
  rw [value_append] at hle
  have htop : e ≤ value 10 (us ++ [d]) := by
    refine Nat.le_of_lt_succ (Nat.lt_of_mul_lt_mul_right (a := 10 ^ vs.length) ?_)
    rw [Nat.succ_mul]
    omega
  obtain ⟨ys, hr, hys, hylen, hyval⟩ :=
    digDec_last p us d e (digitCells vs ++ post) hus he htop
  have hpl : place = p.length + us.length := by omega
  refine ⟨ys ++ vs, ?_, decimal_append.mpr ⟨hys, hvs⟩, ?_, ?_⟩
  · rw [hpl, digitCells_append (us ++ [d]), append_assoc, hr, digitCells_append,
      append_assoc]
  · rw [length_append, length_append, hylen]
  · rw [value_append, value_append, ← hyval, Nat.add_mul]
    omega

/-! ## Comparing with the divisor -/

theorem digitCells_cons (d : Nat) (ds : List Nat) :
    digitCells (d :: ds) = some (digitChar d) :: digitCells ds := rfl

/-- Digit strings of one length are ordered as their numbers, also within their
buffers. -/
theorem strCompareN_digits (post rest : Cells) : ∀ {us ys : List Nat} (p pre : Cells), Decimal us →
    Decimal ys → us.length = ys.length →
    ∃ order, strCompareN (p ++ (digitCells us ++ post)) (pre ++ (digitCells ys ++ rest)) us.length
        p.length pre.length = some order ∧
      (order < 0 ↔ value 10 us < value 10 ys) ∧ (order = 0 ↔ us = ys) ∧
      (0 < order ↔ value 10 ys < value 10 us)
  | [], [], p, pre, _, _, _ => ⟨0, rfl, by simp, by simp, by simp⟩
  | u :: us, y :: ys, p, pre, hu, hy, hlen => by
    obtain ⟨hu, hus⟩ := decimal_cons.mp hu
    obtain ⟨hy, hys⟩ := decimal_cons.mp hy
    have hlen' : us.length = ys.length := Nat.succ.inj hlen
    have hreadU := cellAt_append p (some (digitChar u)) (digitCells us ++ post)
    have hreadY := cellAt_append pre (some (digitChar y)) (digitCells ys ++ rest)
    rw [digitCells_cons, digitCells_cons, cons_append, cons_append, length_cons,
      strCompareN, hreadU, hreadY]
    dsimp only
    by_cases huy : u = y
    · subst huy
      obtain ⟨order, horder, hlt, heq, hgt⟩ := strCompareN_digits post rest
        (p ++ [some (digitChar u)]) (pre ++ [some (digitChar u)]) hus hys hlen'
      rw [append_assoc, append_assoc, length_append, length_append,
        length_singleton] at horder
      rw [if_neg (by simp), if_neg (digitChar_ne_zero u hu)]
      refine ⟨order, horder, ?_, ?_, ?_⟩
      · rw [value_cons_lt_iff hlen', hlt]
      · rw [heq, List.cons.injEq, and_iff_right rfl]
      · rw [value_cons_lt_iff hlen'.symm, hgt]
    · have hne : digitChar u ≠ digitChar y := fun h => huy (digitChar_inj hu hy h)
      rw [if_pos hne, digitChar_toNat u hu, digitChar_toNat y hy]
      refine ⟨_, rfl, ?_⟩
      rcases Nat.lt_or_gt_of_ne huy with h | h
      · have hval := value_lt_of_head (b := 10) (by decide) hus hlen' h
        exact ⟨⟨fun _ => hval, fun _ => by omega⟩,
          ⟨fun h => by omega, fun h => absurd (List.cons.inj h).1 huy⟩,
          ⟨fun h => by omega, fun h => by omega⟩⟩
      · have hval := value_lt_of_head (b := 10) (by decide) hys hlen'.symm h
        exact ⟨⟨fun h => by omega, fun h => by omega⟩,
          ⟨fun h => by omega, fun h => absurd (List.cons.inj h).1 huy⟩,
          ⟨fun _ => hval, fun _ => by omega⟩⟩

/-- The divisor in its buffer: its digits begin at `pb`. -/
structure Divisor (b : Cells) (pb : Nat) (ys : List Nat) : Prop where
  held : ∃ pre rest, b = pre ++ (digitCells ys ++ rest) ∧ pre.length = pb
  decimal : Decimal ys
  canonical : Canonical ys
  nonzero : value 10 ys ≠ 0

namespace Divisor

variable {b : Cells} {pb : Nat} {ys : List Nat}

theorem value_lt (h : Divisor b pb ys) : value 10 ys < 10 ^ ys.length :=
  Digits.value_lt (by decide) h.decimal

theorem le_value (h : Divisor b pb ys) : 10 ^ ys.length ≤ value 10 ys * 10 := by
  obtain ⟨-, -, hcanonical, hnonzero⟩ := h
  exact hcanonical.pow_le fun hzero => hnonzero (by rw [hzero, value_singleton])

theorem length_pos (h : Divisor b pb ys) : 0 < ys.length := length_pos_of_ne_nil h.canonical.1

variable {ws : List Nat} {k place : Nat}

/-- The first comparison of a round: does the divisor go into the leading digits? -/
theorem reaches_spec (h : Divisor b pb ys) (p : Cells) (post : Cells)
    (hws : Decimal ws) (hk : k + ys.length = ws.length) :
    reaches b ys.length pb p.length (p ++ (digitCells ws ++ post)) =
      some (decide (value 10 ys * 10 ^ k ≤ value 10 ws)) := by
  obtain ⟨⟨pre, rest, rfl, rfl⟩, hys, -, -⟩ := h
  have hsplit := take_append_drop ys.length ws
  have hlen : (ws.take ys.length).length = ys.length := by
    rw [length_take]
    omega
  have hlen' : (ws.drop ys.length).length = k := by
    rw [length_drop]
    omega
  rw [← hsplit] at hws ⊢
  obtain ⟨hus, hvs⟩ := decimal_append.mp hws
  obtain ⟨order, horder, hlt, -, -⟩ := strCompareN_digits (digitCells (ws.drop ys.length) ++ post)
    rest p pre hus hys hlen
  rw [hlen] at horder
  rw [reaches, digitCells_append, append_assoc, horder, Option.map_some]
  refine congrArg some (decide_eq_decide.mpr ?_)
  have htop := mul_pow_le_value_append (b := 10) (m := value 10 ys) (ws.take ys.length)
    (by decide) hvs
  rw [hlen'] at htop
  rw [htop]
  omega

theorem reachesNext_spec (h : Divisor b pb ys) (p : Cells) (post : Cells)
    (hws : Decimal ws) (hk : k + 1 + ys.length = ws.length)
    (hsmall : value 10 ws < value 10 ys * 10 ^ (k + 1)) :
    reachesNext b ys.length pb p.length (p ++ (digitCells ws ++ post)) =
      some (decide (value 10 ys * 10 ^ k ≤ value 10 ws)) := by
  obtain ⟨w, ws, rfl⟩ := exists_cons_of_length_pos (l := ws) (by omega)
  obtain ⟨hw, hws'⟩ := decimal_cons.mp hws
  rw [length_cons] at hk
  have hhere := h.reaches_spec p post hws hk
  have hnext := h.reaches_spec (p ++ [some (digitChar w)]) post hws' (k := k) (by omega)
  have hread := cellAt_append p (some (digitChar w)) (digitCells ws ++ post)
  rw [append_assoc, length_append, length_singleton] at hnext
  unfold reaches at hhere hnext
  obtain ⟨order, horder, hge⟩ := Option.map_eq_some_iff.mp hhere
  obtain ⟨next, hnext, hge'⟩ := Option.map_eq_some_iff.mp hnext
  rw [reachesNext, horder]
  rw [digitCells_cons, cons_append, hread]
  rw [singleton_append] at hnext
  rw [hnext]
  dsimp only
  refine congrArg some (decide_eq_decide.mpr ?_)
  rw [decide_eq_decide] at hge hge'
  rw [value_cons] at hsmall hge ⊢
  rw [digitChar_eq_zero w hw, ne_eq, digitChar_eq_zero w hw]
  by_cases hzero : w = 0
  · rw [hzero, Nat.zero_mul, Nat.zero_add]
    omega
  · -- a digit before those that are compared: the divisor goes into them
    have hle : value 10 ys * 10 ^ k ≤ w * 10 ^ ws.length := by
      calc value 10 ys * 10 ^ k ≤ 10 ^ ys.length * 10 ^ k :=
            Nat.mul_le_mul_right _ (Nat.le_of_lt h.value_lt)
        _ = 10 ^ ws.length := by rw [← Nat.pow_add]; congr 1; omega
        _ ≤ w * 10 ^ ws.length := Nat.le_mul_of_pos_left _ (Nat.pos_of_ne_zero hzero)
    omega

/-! ## Subtracting the divisor -/

/-- The digits of the divisor that are left, `ra.reverse`, are subtracted; `done` are those
that were. -/
theorem subRow_from (pre rest p post : Cells) :
    ∀ (ra done ws : List Nat), Decimal ra → Decimal ws → place + k + 1 = p.length + ws.length →
    k + (ra.length + done.length) ≤ ws.length →
    value 10 ra.reverse * 10 ^ (k + done.length) ≤ value 10 ws →
    Lowered p ws post (value 10 ra.reverse * 10 ^ (k + done.length))
      (subRow (pre ++ (digitCells (ra.reverse ++ done) ++ rest)) (ra.length + done.length)
        pre.length place ra.length done.length (p ++ (digitCells ws ++ post))) := by
  intro ra
  induction ra with
  | nil =>
    intro done ws _ hws _ _ _
    rw [reverse_nil, value_nil, Nat.zero_mul]
    exact ⟨ws, rfl, hws, rfl, rfl⟩
  | cons y ra ih =>
    intro done ws hra hws hplace hlen hle
    obtain ⟨hy, hra⟩ := decimal_cons.mp hra
    rw [length_cons] at hlen ⊢
    rw [reverse_cons, value_concat] at hle ⊢
    have hsplit : (value 10 ra.reverse * 10 + y) * 10 ^ (k + done.length) =
        y * 10 ^ (k + done.length) + value 10 ra.reverse * 10 ^ (k + (done.length + 1)) := by
      rw [← Nat.add_assoc, Nat.pow_succ]
      ring
    rw [hsplit] at hle ⊢
    have hread : cellAt (pre ++ (digitCells (ra.reverse ++ [y] ++ done) ++ rest))
        (pre.length + (ra.length + 1 + done.length - 1 - done.length)) =
        some (digitChar y) := by
      have h := cellAt_digit pre ra.reverse y (digitCells done ++ rest)
      rw [length_reverse] at h
      rw [digitCells_append (ra.reverse ++ [y]), append_assoc]
      have hidx : ra.length + 1 + done.length - 1 - done.length = ra.length := by omega
      rw [hidx]
      exact h
    rw [subRow, hread]
    dsimp only
    rw [if_pos (by omega : done.length ≤ place)]
    obtain ⟨vs, hr, hvs, hvlen, hvval⟩ := digDec_spec p (k := k + done.length)
      (place - done.length) post hws hy (by omega) (by omega) (by omega)
    rw [hr, Option.bind_some]
    have hnext := ih (y :: done) vs hra hvs (by rw [hvlen]; exact hplace)
      (by rw [length_cons, hvlen]; omega) (by rw [length_cons]; omega)
    rw [length_cons, ← Nat.add_assoc ra.length, Nat.add_right_comm ra.length] at hnext
    obtain ⟨zs, hr', hzs, hzlen, hzval⟩ := hnext
    refine ⟨zs, ?_, hzs, hzlen.trans hvlen, by omega⟩
    rw [append_assoc, singleton_append]
    exact hr'

/-- The `for` loop takes the divisor off, `k` places from the right. -/
theorem subRow_spec (h : Divisor b pb ys) (p post : Cells) (hws : Decimal ws) (hplace : place + k + 1 = p.length + ws.length) (hk : k + ys.length ≤ ws.length)
    (hle : value 10 ys * 10 ^ k ≤ value 10 ws) :
    Lowered p ws post (value 10 ys * 10 ^ k)
      (subRow b ys.length pb place ys.length 0 (p ++ (digitCells ws ++ post))) := by
  obtain ⟨⟨pre, rest, rfl, rfl⟩, hys, -, -⟩ := h
  have hrow := subRow_from pre rest p post ys.reverse [] ws
    (decimal_reverse.mpr hys) hws hplace (by rw [length_reverse]; exact hk)
    (by rw [reverse_reverse]; exact hle)
  rw [reverse_reverse, append_nil, length_reverse, length_nil, Nat.add_zero,
    Nat.add_zero] at hrow
  exact hrow

/-- The `do` loop takes off the greatest multiple of the divisor and counts it. -/
theorem subWhile_spec (h : Divisor b pb ys) (p post : Cells) {n : Nat}
    (again : Cells → Option Bool) (hplace : place + k + 1 = p.length + n) (hk : k + ys.length ≤ n)
    (bound : Nat) (hagain : ∀ ws, Decimal ws → ws.length = n → value 10 ws ≤ bound →
      again (p ++ (digitCells ws ++ post)) = some (decide (value 10 ys * 10 ^ k ≤ value 10 ws))) :
    ∀ (fuel tmp : Nat) (ws : List Nat), Decimal ws → ws.length = n → value 10 ws ≤ bound →
    value 10 ys * 10 ^ k ≤ value 10 ws → value 10 ws < fuel * (value 10 ys * 10 ^ k) →
    ∃ q vs, subWhile b ys.length pb place again fuel tmp (p ++ (digitCells ws ++ post)) =
        some (tmp + q, p ++ (digitCells vs ++ post)) ∧ q < fuel ∧ 1 ≤ q ∧ Decimal vs ∧
      vs.length = n ∧ q * (value 10 ys * 10 ^ k) + value 10 vs = value 10 ws ∧
      value 10 vs < value 10 ys * 10 ^ k := by
  intro fuel
  induction fuel with
  | zero =>
    intro tmp ws _ _ _ _ hfuel
    rw [Nat.zero_mul] at hfuel
    exact absurd hfuel (Nat.not_lt_zero _)
  | succ fuel ih =>
    intro tmp ws hws hlen hbound hle hfuel
    obtain ⟨vs, hr, hvs, hvlen, hvval⟩ := h.subRow_spec p post hws (by rw [hlen]; exact hplace)
      (by rw [hlen]; exact hk) hle
    rw [Nat.succ_mul] at hfuel
    rw [subWhile, hr]
    dsimp only
    rw [hagain vs hvs (hvlen.trans hlen) (by omega)]
    by_cases hmore : value 10 ys * 10 ^ k ≤ value 10 vs
    · rw [decide_eq_true hmore]
      dsimp only
      obtain ⟨q, zs, hrun, hq, hpos, hzs, hzlen, hsum, hsmall⟩ :=
        ih (tmp + 1) vs hvs (hvlen.trans hlen) (by omega) hmore (by omega)
      refine ⟨q + 1, zs, ?_, by omega, by omega, hzs, hzlen, ?_, hsmall⟩
      · rw [hrun, Nat.add_right_comm, Nat.add_assoc]
      · rw [Nat.succ_mul]
        omega
    · rw [decide_eq_false hmore]
      refine ⟨1, vs, rfl, ?_, Nat.le_refl 1, hvs, hvlen.trans hlen, by omega, by omega⟩
      -- the first round alone is within the bound
      by_contra hone
      have hzero : fuel = 0 := by omega
      rw [hzero, Nat.zero_mul, Nat.zero_add] at hfuel
      omega

end Divisor

/-! ## The other loops -/

/-- The loop behind a round drops the zeros on the left, except the last digit. -/
theorem skipZeros_spec : ∀ (ws : List Nat) (p : Cells) (fuel : Nat), Decimal ws → ws ≠ [] →
    ws.length < fuel →
    ∃ p', skipZeros (p ++ (digitCells ws ++ [some 0])) fuel p.length ws.length =
        some (p'.length, (strip ws).length) ∧ p ++ digitCells ws = p' ++ digitCells (strip ws)
  | [], _, _, _, hne, _ => absurd rfl hne
  | _ :: _, _, 0, _, _, hfuel => absurd hfuel (Nat.not_lt_zero _)
  | w :: ws, p, fuel + 1, hws, _, hfuel => by
    obtain ⟨hw, htail⟩ := decimal_cons.mp hws
    rw [digitCells_cons, cons_append, skipZeros, cellAt_append]
    dsimp only
    by_cases hzero : w = 0
    · subst hzero
      have hlen : p.length + 1 = (p ++ [some (digitChar 0)]).length := by rw [length_append, length_singleton]
      rw [if_pos digitChar_zero, hlen, append_cons p, append_cons p _ (digitCells ws)]
      cases ws with
      | nil =>
        rw [digitCells, map_nil, nil_append, cellAt_append, append_nil]
        exact ⟨p, rfl, rfl⟩
      | cons v ws =>
        obtain ⟨hv, -⟩ := decimal_cons.mp htail
        rw [digitCells_cons, cons_append, cellAt_append]
        dsimp only
        rw [if_pos (digitChar_ne_zero v hv), length_cons, Nat.add_sub_cancel]
        exact skipZeros_spec (v :: ws) _ fuel htail (cons_ne_nil _ _) (Nat.lt_of_succ_lt_succ hfuel)
    · rw [if_neg (fun h => hzero ((digitChar_eq_zero w hw).mp h)), strip_of_head (by simpa using hzero)]
      exact ⟨p, rfl, rfl⟩

theorem strip_eq_dropWhile : ∀ {ds : List Nat}, ds ≠ [] →
    strip ds = if ds.dropWhile (· == 0) = [] then [0] else ds.dropWhile (· == 0)
  | [], h => absurd rfl h
  | [0], _ => rfl
  | [_ + 1], _ => rfl
  | 0 :: d :: ds, _ => by
    rw [strip]
    exact strip_eq_dropWhile (cons_ne_nil d ds)
  | (_ + 1) :: _ :: _, _ => rfl

/-- The loop behind the last subtractions drops them all. -/
theorem skipAllZeros_spec : ∀ (ws : List Nat) (p : Cells) (fuel : Nat), Decimal ws →
    ws.length < fuel →
    ∃ p', skipAllZeros (p ++ (digitCells ws ++ [some 0])) fuel p.length ws.length =
        some (p'.length, (ws.dropWhile (· == 0)).length) ∧
      p ++ digitCells ws = p' ++ digitCells (ws.dropWhile (· == 0))
  | _, _, 0, _, hfuel => absurd hfuel (Nat.not_lt_zero _)
  | [], p, fuel + 1, _, _ => by
    rw [digitCells, map_nil, nil_append, skipAllZeros, cellAt_append]
    exact ⟨p, rfl, rfl⟩
  | w :: ws, p, fuel + 1, hws, hfuel => by
    obtain ⟨hw, htail⟩ := decimal_cons.mp hws
    rw [digitCells_cons, cons_append, skipAllZeros, cellAt_append]
    dsimp only
    by_cases hzero : w = 0
    · subst hzero
      have hlen : p.length + 1 = (p ++ [some (digitChar 0)]).length := by rw [length_append, length_singleton]
      rw [if_pos digitChar_zero, hlen, append_cons p, append_cons p _ (digitCells ws), length_cons,
        Nat.add_sub_cancel]
      exact skipAllZeros_spec ws _ fuel htail (Nat.lt_of_succ_lt_succ hfuel)
    · rw [if_neg (fun h => hzero ((digitChar_eq_zero w hw).mp h)),
        dropWhile_cons_of_neg (by simpa using hzero)]
      exact ⟨p, rfl, rfl⟩

theorem copyCells_spec (spost dpost : Cells) : ∀ (cs : List UInt8) (sp dp gap : Cells),
    gap.length = cs.length →
    copyCells (sp ++ (cs.map some ++ spost)) cs.length sp.length dp.length (dp ++ (gap ++ dpost)) =
      some (dp ++ (cs.map some ++ dpost))
  | [], _, _, _, hlen => by
    rw [length_eq_zero_iff.mp hlen]
    rfl
  | c :: cs, sp, dp, gap, hlen => by
    obtain ⟨x, gap, rfl⟩ := exists_cons_of_length_eq_add_one hlen
    have hnext := copyCells_spec spost dpost cs (sp ++ [some c]) (dp ++ [some c]) gap (Nat.succ.inj hlen)
    rw [append_assoc, append_assoc, append_assoc, length_append,
      length_append, length_singleton] at hnext
    rw [map_cons, cons_append, length_cons, copyCells, cellAt_append]
    dsimp only
    rw [cons_append, put_append, Option.bind_some]
    exact hnext

variable {ds us : List Nat} {pa posta : Cells} {m size total : Nat}

theorem copyCells_digits (spost dpost : Cells) (sp dp gap : Cells)
    (hlen : gap.length = ds.length) :
    copyCells (sp ++ (digitCells ds ++ spost)) ds.length sp.length dp.length (dp ++ (gap ++ dpost)) =
      some (dp ++ (digitCells ds ++ dpost)) := by
  have hcopy := copyCells_spec spost dpost (ds.map digitChar) sp dp gap
    (by rw [length_map]; exact hlen)
  rw [length_map, ← digitCells_eq] at hcopy
  exact hcopy

theorem zeroCells_spec (post : Cells) : ∀ (n : Nat) (p gap : Cells), gap.length = n →
    zeroCells n p.length (p ++ (gap ++ post)) =
      some (p ++ (digitCells (List.replicate n 0) ++ post))
  | 0, _, _, hlen => by
    rw [length_eq_zero_iff.mp hlen]
    rfl
  | n + 1, p, gap, hlen => by
    obtain ⟨x, gap, rfl⟩ := exists_cons_of_length_eq_add_one hlen
    have hnext := zeroCells_spec post n (p ++ [some 48]) gap (Nat.succ.inj hlen)
    rw [append_assoc, append_assoc, length_append, length_singleton] at hnext
    rw [zeroCells, cons_append, put_append, Option.bind_some]
    exact hnext

theorem str_bytes (post : Cells) : ∀ {cs : List UInt8}, 0 ∉ cs →
    str (cs.map some ++ some 0 :: post) = some (cs ++ [0])
  | [], _ => rfl
  | c :: cs, hcs => by
    rw [mem_cons, not_or] at hcs
    rw [map_cons, cons_append, str, if_neg (Ne.symm hcs.1), str_bytes post hcs.2]
    rfl

theorem str_digits (post : Cells) (hds : Decimal ds) :
    str (digitCells ds ++ some 0 :: post) = some (digitChars ds) := by
  rw [digitCells_eq]
  exact str_bytes post (zero_not_mem_digitChars hds)

/-! ## Rounds -/

/-- Digits of the quotient with room for `m` more, and the rest `ds`: with the divisor
`value 10 ys` they make up `total`, and the digits to come suffice for the rest. -/
structure Dividing (ys : List Nat) (size total : Nat) (us : List Nat) (m : Nat) (ds : List Nat) :
    Prop where
  quotient : Decimal us
  rest : Decimal ds
  canonical : Canonical ds
  length : us.length + m = size
  sum : value 10 us * 10 ^ m * value 10 ys + value 10 ds = total
  room : value 10 ds < value 10 ys * 10 ^ m

/-- What the buffers hold: the digits of the quotient `us`, then `m` zeros, behind `pa`,
and the rest `ds` from `sub` on. -/
def Holds (pa posta : Cells) (us : List Nat) (m : Nat) (ds : List Nat) (s : DivState) : Prop :=
  ∃ p, s = ⟨pa ++ (digitCells (us ++ List.replicate m 0) ++ posta),
    p ++ (digitCells ds ++ [some 0]), p.length, ds.length⟩

theorem put_place {k out e : Nat} (hk : k < m)
    (hout : out + k + 1 = pa.length + (us.length + m)) :
    put (pa ++ (digitCells (us ++ List.replicate m 0) ++ posta)) out (digitChar e) =
      some (pa ++ (digitCells ((us ++ (List.replicate (m - k - 1) 0 ++ [e])) ++
        List.replicate k 0) ++ posta)) := by
  have hzeros : List.replicate m 0 = List.replicate (m - k - 1) 0 ++ ([0] ++ List.replicate k 0) := by
    rw [← replicate_one, ← replicate_add, ← replicate_add]
    congr 1
    omega
  have hwrite := put_behind pa (us ++ List.replicate (m - k - 1) 0) (some (digitChar 0))
    (digitCells (List.replicate k 0) ++ posta) (digitChar e)
  have hidx : pa.length + (us ++ List.replicate (m - k - 1) 0).length = out := by
    rw [length_append, length_replicate]
    omega
  rw [hidx, ← digitCells_concat, ← digitCells_concat] at hwrite
  rw [hzeros, ← append_assoc us, ← append_assoc (us ++ _), digitCells_append (_ ++ [0]),
    append_assoc (digitCells _), hwrite, ← append_assoc us, digitCells_append (_ ++ [e]),
    append_assoc (digitCells _)]

theorem ofNat_digit (n : Nat) : UInt8.ofNat (n + 48) = digitChar n := by
  rw [digitChar, Nat.add_comm]

/-- The body of a round, once its loop and the place `k` from the right are chosen. -/
theorem round_spec {b : Cells} {ys : List Nat} (h : Divisor b pa.length ys) (hd : Dividing ys size total us m ds)
    (p : Cells) {k : Nat} (place out : Nat) (again : Cells → Option Bool)
    (hplace : place + k + 1 = p.length + ds.length) (hout : out + k + 1 = pa.length + size)
    (hk : k + ys.length ≤ ds.length)
    (hagain : ∀ ws, Decimal ws → ws.length = ds.length → value 10 ws ≤ value 10 ds →
      again (p ++ (digitCells ws ++ [some 0])) =
        some (decide (value 10 ys * 10 ^ k ≤ value 10 ws)))
    (hfrom : value 10 ys * 10 ^ k ≤ value 10 ds)
    (hbelow : value 10 ds < 10 * (value 10 ys * 10 ^ k)) :
    ∃ q vs us' p', k < m ∧
      subWhile b ys.length pa.length place again 10 0 (p ++ (digitCells ds ++ [some 0])) =
        some (q, p ++ (digitCells vs ++ [some 0])) ∧
      put (pa ++ (digitCells (us ++ List.replicate m 0) ++ posta)) out (UInt8.ofNat (q + 48)) =
        some (pa ++ (digitCells (us' ++ List.replicate k 0) ++ posta)) ∧
      skipZeros (p ++ (digitCells vs ++ [some 0])) ((p ++ (digitCells vs ++ [some 0])).length + 1)
          p.length ds.length = some (p'.length, (strip vs).length) ∧
      p ++ digitCells vs = p' ++ digitCells (strip vs) ∧
      Dividing ys size total us' k (strip vs) := by
  obtain ⟨hus, hds, hcanonical, hlen, hsum, hroom⟩ := hd
  -- the place is one that was not written yet
  have hkm : k < m := by
    refine (Nat.pow_lt_pow_iff_right (a := 10) (by decide)).mp ?_
    exact Nat.lt_of_mul_lt_mul_left (Nat.lt_of_le_of_lt hfrom hroom)
  obtain ⟨q, vs, hrun, hq, hpos, hvs, hvlen, hsub, hsmall⟩ :=
    h.subWhile_spec p [some 0] again hplace hk (value 10 ds) hagain 10 0 ds hds rfl (Nat.le_refl _) hfrom hbelow
  have hvne : vs ≠ [] := fun hnil => hcanonical.1 (length_eq_zero_iff.mp (by
    rw [← hvlen, hnil]
    rfl))
  obtain ⟨p', hskip, hsplit⟩ := skipZeros_spec vs p ((p ++ (digitCells vs ++ [some 0])).length + 1)
    hvs hvne (by
      rw [length_append, length_append, digitCells_length]
      omega)
  rw [hvlen] at hskip
  rw [Nat.zero_add] at hrun
  refine ⟨q, vs, us ++ (List.replicate (m - k - 1) 0 ++ [q]), p', hkm, hrun, ?_, hskip, hsplit, ?_⟩
  · rw [ofNat_digit]
    exact put_place hkm (by rw [hlen]; exact hout)
  · refine ⟨decimal_append.mpr ⟨hus, decimal_append.mpr ⟨decimal_zeros _, decimal_cons.mpr
      ⟨hq, Decimal.nil⟩⟩⟩, fun d hd => hvs d (mem_strip hd), strip_canonical hvne, ?_, ?_, ?_⟩
    · rw [length_append, length_append, length_replicate, length_singleton]
      omega
    · rw [strip_value, ← hsum, ← hsub, value_append, length_append, length_replicate,
        length_singleton, value_concat, value_replicate_zero]
      have hpow : 10 ^ m = 10 ^ (m - k - 1 + 1) * 10 ^ k := by
        rw [← Nat.pow_add]
        congr 1
        omega
      rw [hpow]
      ring
    · rw [strip_value]
      exact hsmall

/-- A round takes from the rest its greatest multiple of the divisor at a place where
the quotient still has a zero. -/
theorem divRound_spec {b : Cells} {ys : List Nat} (h : Divisor b pa.length ys) {s : DivState}
    (hs : Holds pa posta us m ds s) (hd : Dividing ys size total us m ds)
    (hlong : ys.length < ds.length) :
    ∃ s' us' k ds', divRound b ys.length pa.length (pa.length + size - 1) s = some s' ∧ k < m ∧
      Holds pa posta us' k ds' s' ∧ Dividing ys size total us' k ds' := by
  obtain ⟨p, rfl⟩ := hs
  obtain ⟨n, hn⟩ := Nat.exists_eq_add_of_lt hlong
  have hsize : n + 1 + ys.length = ds.length := by omega
  have hpos := h.length_pos
  have hlen := hd.length
  have hdslt := value_lt (b := 10) (by decide) hd.rest
  have hpow : 10 ^ ds.length ≤ 10 * (value 10 ys * 10 ^ (n + 1)) := by
    rw [← hsize, Nat.pow_add, Nat.mul_comm (10 ^ (n + 1)), ← Nat.mul_assoc, Nat.mul_comm 10]
    exact Nat.mul_le_mul_right _ h.le_value
  unfold divRound
  dsimp only
  rw [h.reaches_spec p [some 0] hd.rest hsize]
  by_cases hgo : value 10 ys * 10 ^ (n + 1) ≤ value 10 ds
  · -- the divisor goes into as many digits as it has
    have hroom : n + 1 < m := by
      refine (Nat.pow_lt_pow_iff_right (a := 10) (by decide)).mp ?_
      exact Nat.lt_of_mul_lt_mul_left (Nat.lt_of_le_of_lt hgo hd.room)
    obtain ⟨q, vs, us', p', hk, hrun, hput, hskip, hsplit, hd'⟩ := round_spec h hd p (k := n + 1)
      (p.length + ys.length - 1) (pa.length + size - 1 + ys.length - ds.length)
      (reaches b ys.length pa.length p.length)
      (by omega) (by omega) (by omega)
      (fun ws hws hlen' _ => h.reaches_spec p [some 0] hws (by rw [hlen']; exact hsize)) hgo
      (Nat.lt_of_lt_of_le hdslt hpow)
    rw [decide_eq_true hgo]
    dsimp only
    rw [if_pos rfl]
    dsimp only
    rw [hrun]
    dsimp only
    rw [hput, hskip]
    refine ⟨_, us', n + 1, strip vs, rfl, hk, ⟨p', ?_⟩, hd'⟩
    rw [← append_assoc p, hsplit, append_assoc]
  · -- one digit more
    have hbelow : value 10 ds < 10 * (value 10 ys * 10 ^ n) := by
      rw [Nat.pow_succ] at hgo
      rw [Nat.mul_comm 10, Nat.mul_assoc]
      omega
    have hfrom : value 10 ys * 10 ^ n ≤ value 10 ds := by
      have htop := hd.canonical.pow_le (b := 10) (fun hone => by
        rw [hone, length_singleton] at hsize
        omega)
      have hmul := Nat.mul_le_mul_right (10 ^ n * 10) (Nat.le_of_lt h.value_lt)
      rw [← Nat.pow_succ, ← Nat.pow_add, Nat.add_comm ys.length, hsize, Nat.pow_succ,
        ← Nat.mul_assoc] at hmul
      omega
    have hroom : n < m := by
      refine (Nat.pow_lt_pow_iff_right (a := 10) (by decide)).mp ?_
      exact Nat.lt_of_mul_lt_mul_left (Nat.lt_of_le_of_lt hfrom hd.room)
    obtain ⟨q, vs, us', p', hk, hrun, hput, hskip, hsplit, hd'⟩ := round_spec h hd p (k := n)
      (p.length + ys.length) (pa.length + size - 1 + ys.length + 1 - ds.length)
      (reachesNext b ys.length pa.length p.length)
      (by omega) (by omega) (by omega)
      (fun ws hws hlen' hle => h.reachesNext_spec p [some 0] hws (by rw [hlen']; exact hsize)
        (by omega)) hfrom hbelow
    rw [decide_eq_false hgo]
    dsimp only
    rw [if_neg (by decide)]
    dsimp only
    rw [hrun]
    dsimp only
    rw [hput, hskip]
    refine ⟨_, us', n, strip vs, rfl, hk, ⟨p', ?_⟩, hd'⟩
    rw [← append_assoc p, hsplit, append_assoc]

/-- The loop ends with a rest that is not longer than the divisor. -/
theorem divLoop_spec {b : Cells} {ys : List Nat} (posta : Cells)
    (h : Divisor b pa.length ys) : ∀ (fuel : Nat) (us : List Nat) (m : Nat) (ds : List Nat) (s : DivState),
    Holds pa posta us m ds s → Dividing ys size total us m ds → m < fuel →
    ∃ s' us' k ds', divLoop b ys.length pa.length (pa.length + size - 1) fuel s = some s' ∧
      Holds pa posta us' k ds' s' ∧ Dividing ys size total us' k ds' ∧ ds'.length ≤ ys.length := by
  intro fuel
  induction fuel with
  | zero =>
    intro us m ds s _ _ hfuel
    exact absurd hfuel (Nat.not_lt_zero m)
  | succ fuel ih =>
    intro us m ds s hs hd hfuel
    have hrem : s.bufRem = ds.length := by
      obtain ⟨p, rfl⟩ := hs
      rfl
    rw [divLoop, hrem]
    by_cases hlong : ds.length > ys.length
    · obtain ⟨s', us', k, ds', hround, hk, hs', hd'⟩ := divRound_spec h hs hd hlong
      rw [if_pos hlong, hround, Option.bind_some]
      exact ih us' k ds' s' hs' hd' (by omega)
    · rw [if_neg hlong]
      exact ⟨s, us, m, ds, rfl, hs, hd, Nat.le_of_not_lt hlong⟩

/-! ## Behind the loop -/

/-- The rest goes over the digits of the divisor, with its NUL. -/
theorem putDigits_spec (sp spost pre rest : Cells) {ys : List Nat}
    (hle : ds.length ≤ ys.length) :
    ∃ rest', (copyCells (sp ++ (digitCells ds ++ spost)) ds.length sp.length pre.length
        (pre ++ (digitCells ys ++ some 0 :: rest))).bind
          (fun b => put b (pre.length + ds.length) 0) =
        some (pre ++ (digitCells ds ++ some 0 :: rest')) ∧
      ds.length + rest'.length = ys.length + rest.length := by
  have hsplit : digitCells ys ++ some 0 :: rest =
      digitCells (ys.take ds.length) ++ (digitCells (ys.drop ds.length) ++ some 0 :: rest) := by
    rw [← append_assoc, ← digitCells_append, take_append_drop]
  obtain ⟨x, tail, htail⟩ := exists_cons_of_ne_nil
    (append_ne_nil_of_right_ne_nil (digitCells (ys.drop ds.length))
      (cons_ne_nil (some 0) rest))
  have hput := put_append (pre ++ digitCells ds) x tail 0
  rw [length_append, digitCells_length, append_assoc, append_assoc] at hput
  have hlen := congrArg List.length htail
  rw [length_append, digitCells_length, length_drop, length_cons,
    length_cons] at hlen
  rw [hsplit, copyCells_digits _ _ _ _ _ (by rw [digitCells_length, length_take]; omega),
    Option.bind_some, htail]
  exact ⟨tail, hput, by omega⟩

theorem putZero_spec (p : Cells) (ys : List Nat) (rest : Cells) (hpos : 0 < ys.length) :
    ∃ rest', (put (p ++ (digitCells ys ++ some 0 :: rest)) p.length 48).bind
        (fun b => put b (p.length + 1) 0) = some (p ++ (digitCells [0] ++ some 0 :: rest')) ∧
      1 + rest'.length = ys.length + rest.length := by
  obtain ⟨y, ys, rfl⟩ := exists_cons_of_length_pos hpos
  obtain ⟨x, tail, htail⟩ := exists_cons_of_ne_nil
    (append_ne_nil_of_right_ne_nil (digitCells ys) (cons_ne_nil (some 0) rest))
  have hlen := congrArg List.length htail
  rw [length_append, digitCells_length, length_cons, length_cons] at hlen
  have hdigit := put_append p (some (digitChar y)) (x :: tail) 48
  have hend := put_append (p ++ [some 48]) x tail 0
  rw [length_append, length_singleton, append_assoc, append_assoc,
    singleton_append, singleton_append] at hend
  rw [digitCells_cons, cons_append, htail, hdigit, Option.bind_some, hend]
  exact ⟨tail, rfl, by rw [length_cons]; omega⟩

/-- What the division leaves in the buffers before the last `ChrCpz`. -/
def Divided (pa posta pre rest : Cells) (ys : List Nat) (size total : Nat)
    (r : Option (Cells × Cells)) : Prop :=
  ∃ qs rs rest', r = some (pa ++ (digitCells qs ++ posta), pre ++ (digitCells rs ++ some 0 :: rest')) ∧
    Decimal qs ∧ qs.length = size ∧ Decimal rs ∧ Canonical rs ∧
    rs.length + rest'.length = ys.length + rest.length ∧
    value 10 qs * value 10 ys + value 10 rs = total ∧ value 10 rs < value 10 ys

theorem digInc_end {ys : List Nat}
    (pa posta : Cells) (hd : Dividing ys size total us m ds) (hys : value 10 ys ≠ 0)
    (hpos : 0 < size) (htotal : total < 10 ^ size) {q : Nat} (hq : q < 10)
    (hle : q * value 10 ys ≤ value 10 ds) :
    Raised pa (us ++ List.replicate m 0) posta q
      (digInc (UInt8.ofNat (q + 48)) (pa.length + size - 1)
        (pa ++ (digitCells (us ++ List.replicate m 0) ++ posta))) := by
  obtain ⟨hus, -, -, hlen, hsum, -⟩ := hd
  have hlen' : (us ++ List.replicate m 0).length = size := by
    rw [length_append, length_replicate, hlen]
  have hval : value 10 (us ++ List.replicate m 0) = value 10 us * 10 ^ m := by
    rw [value_append, value_replicate_zero, length_replicate, Nat.add_zero]
  have hds : Decimal (us ++ List.replicate m 0) := decimal_append.mpr ⟨hus, decimal_zeros m⟩
  have hlt : value 10 (us ++ List.replicate m 0) + q < 10 ^ size := by
    refine Nat.lt_of_le_of_lt (Nat.le_mul_of_pos_right _ (Nat.pos_of_ne_zero hys)) ?_
    rw [Nat.add_mul, hval]
    omega
  obtain ⟨vs, d, hvs⟩ := (eq_nil_or_concat' (us ++ List.replicate m 0)).resolve_left
    (fun hnil => by
      rw [hnil, length_nil] at hlen'
      omega)
  rw [hvs] at hds hlt hlen' ⊢
  rw [length_append, length_singleton] at hlen'
  have hplace : pa.length + size - 1 = pa.length + vs.length := by omega
  rw [hplace]
  exact digInc_last pa vs d q posta hds hq (by rw [hlen']; exact hlt)

theorem divLast_spec {ys : List Nat} {pre rest : Cells}
    (h : Divisor (pre ++ (digitCells ys ++ some 0 :: rest)) pa.length ys)
    (hpre : pre.length = pa.length)
    {s : DivState} (hs : Holds pa posta us m ds s) (hd : Dividing ys size total us m ds)
    (hsize : 0 < size) (htotal : total < 10 ^ size) (hle : ds.length ≤ ys.length) :
    Divided pa posta pre rest ys size total
      (divLast (pre ++ (digitCells ys ++ some 0 :: rest)) ys.length pa.length (pa.length + size - 1)
        s) := by
  obtain ⟨p, rfl⟩ := hs
  have hlen := hd.length
  have hsum := hd.sum
  have hval : value 10 (us ++ List.replicate m 0) = value 10 us * 10 ^ m := by
    rw [value_append, value_replicate_zero, length_replicate, Nat.add_zero]
  -- the rest is smaller than the divisor already
  have hsmall : value 10 ds < value 10 ys → Divided pa posta pre rest ys size total
      ((putRest ⟨pa ++ (digitCells (us ++ List.replicate m 0) ++ posta),
        p ++ (digitCells ds ++ [some 0]), p.length, ds.length⟩
        (pre ++ (digitCells ys ++ some 0 :: rest)) pa.length).map
          (pa ++ (digitCells (us ++ List.replicate m 0) ++ posta), ·)) := by
    intro hlt
    obtain ⟨rest', hput, hrest⟩ := putDigits_spec p [some 0] pre rest hle
    unfold putRest
    dsimp only
    rw [← hpre, hput]
    refine ⟨us ++ List.replicate m 0, ds, rest', rfl,
      decimal_append.mpr ⟨hd.quotient, decimal_zeros m⟩, ?_, hd.rest, hd.canonical, hrest, ?_, hlt⟩
    · rw [length_append, length_replicate, hlen]
    · rw [hval, hsum]
  unfold divLast
  dsimp only
  by_cases hequal : ds.length = ys.length
  · obtain ⟨order, horder, hlt, heq, hgt⟩ := strCompareN_digits [some 0] (some 0 :: rest) p pre
      hd.rest h.decimal hequal
    rw [if_pos hequal, ← hpre, horder]
    dsimp only
    by_cases hless : order < 0
    · rw [if_pos hless, hpre]
      exact hsmall (hlt.mp hless)
    · rw [if_neg hless]
      by_cases hzero : order = 0
      · -- the divisor goes into the rest once, and nothing is left
        have hsame := heq.mp hzero
        obtain ⟨rest', hput, hrest⟩ := putZero_spec pre ys rest h.length_pos
        obtain ⟨qs, place, hraise, hqs, hqlen, hqval, -⟩ := digInc_end pa posta hd h.nonzero hsize
          htotal (q := 1) (by decide) (by rw [Nat.one_mul, hsame])
        have hone : (UInt8.ofNat (1 + 48)) = 49 := rfl
        rw [if_pos hzero, hput, hpre, ← hone, hraise]
        refine ⟨qs, [0], rest', rfl, hqs, ?_, decimal_cons.mpr ⟨by decide, Decimal.nil⟩,
          ⟨by decide, fun _ => rfl⟩, hrest, ?_, ?_⟩
        · rw [hqlen, length_append, length_replicate, hlen]
        · rw [hqval, hval, value_singleton, Nat.add_zero, Nat.add_mul, Nat.one_mul, ← hsum, hsame]
        · rw [value_singleton]
          exact Nat.pos_of_ne_zero h.nonzero
      · have hmore : value 10 ys < value 10 ds := hgt.mp (by omega)
        have hdslt := value_lt (b := 10) (by decide) hd.rest
        have htop := h.le_value
        rw [← hequal] at htop
        have hpow : value 10 ys * 10 ^ 0 = value 10 ys := by rw [Nat.pow_zero, Nat.mul_one]
        have hpos := h.length_pos
        have hend : p.length + ds.length - 1 + 0 + 1 = p.length + ds.length := by omega
        obtain ⟨q, vs, hrun, hq, hqpos, hvs, hvlen, hsub, hvlt⟩ := h.subWhile_spec p [some 0]
          (n := ds.length) (k := 0)
          (reaches (pre ++ (digitCells ys ++ some 0 :: rest)) ys.length pa.length p.length)
          hend (by omega) (value 10 ds)
          (fun ws hws hlen' _ => h.reaches_spec p [some 0] hws (by omega)) 10 0 ds hd.rest rfl
          (Nat.le_refl _) (by rw [hpow]; omega) (by rw [hpow]; omega)
        rw [hpow] at hsub hvlt
        rw [Nat.zero_add] at hrun
        obtain ⟨qs, place, hraise, hqs, hqlen, hqval, -⟩ := digInc_end pa posta hd h.nonzero hsize
          htotal hq (by omega)
        obtain ⟨p', hskip, hsplit⟩ := skipAllZeros_spec vs p
          ((p ++ (digitCells vs ++ [some 0])).length + 1) hvs (by
            rw [length_append, length_append, digitCells_length]
            omega)
        rw [hvlen] at hskip
        have hvne : vs ≠ [] := ne_nil_of_length_pos (by omega)
        have hbuf : p ++ (digitCells vs ++ [some 0]) =
            p' ++ (digitCells (vs.dropWhile (· == 0)) ++ [some 0]) := by
          rw [← append_assoc, hsplit, append_assoc]
        have hstrip := strip_eq_dropWhile hvne
        have hdrop : (vs.dropWhile (· == 0)).length ≤ ys.length := by
          have hsuffix := (dropWhile_suffix (l := vs) (· == 0)).length_le
          omega
        have hqlen' : qs.length = size := by
          rw [hqlen, length_append, length_replicate, hlen]
        have htotal' : value 10 qs * value 10 ys + value 10 (strip vs) = total := by
          rw [strip_value, hqval, hval, Nat.add_mul, Nat.add_assoc, hsub, hsum]
        have hrs : Decimal (strip vs) := fun d hd => hvs d (mem_strip hd)
        have hrlt : value 10 (strip vs) < value 10 ys := by rw [strip_value]; exact hvlt
        rw [if_neg hzero, hequal, hpre]
        rw [hequal] at hrun hskip
        rw [hrun]
        dsimp only
        rw [hraise, hskip]
        dsimp only
        rw [hbuf, ← hpre]
        by_cases hnil : vs.dropWhile (· == 0) = []
        · -- nothing is left
          obtain ⟨rest', hput, hrest⟩ := putZero_spec pre ys rest h.length_pos
          rw [if_pos hnil] at hstrip
          rw [hnil, length_nil, copyCells]
          dsimp only
          rw [if_neg (fun h => h rfl), hput]
          exact ⟨qs, strip vs, rest', by rw [hstrip]; rfl, hqs, hqlen', hrs, strip_canonical hvne,
            by rw [hstrip]; exact hrest, htotal', hrlt⟩
        · obtain ⟨rest', hput, hrest⟩ := putDigits_spec p' [some 0] pre rest hdrop
          obtain ⟨c, hcopy, hend⟩ := Option.bind_eq_some_iff.mp hput
          rw [if_neg hnil] at hstrip
          rw [hcopy]
          dsimp only
          rw [if_pos (fun h => hnil (length_eq_zero_iff.mp h)), hend]
          exact ⟨qs, strip vs, rest', by rw [hstrip]; rfl, hqs, hqlen', hrs, strip_canonical hvne,
            by rw [hstrip]; exact hrest, htotal', hrlt⟩
  · rw [if_neg hequal]
    exact hsmall (value_lt_of_length (by decide) hd.rest h.canonical (by omega) hd.canonical.1)

/-! ## `ChrDiv` -/

/-- What a division leaves in the two buffers: quotient and remainder of the numbers
`xs` and `ys`. -/
def Quotient (pa pre ra rb : Cells) (xs ys : List Nat) (r : Option Division) : Prop :=
  ∃ qs rs ra' rb', r = some ⟨pa ++ (digitCells qs ++ some 0 :: ra'),
      pre ++ (digitCells rs ++ some 0 :: rb'), false⟩ ∧
    Decimal qs ∧ Canonical qs ∧ Decimal rs ∧ Canonical rs ∧
    qs.length + ra'.length = xs.length + ra.length ∧
    rs.length + rb'.length = ys.length + rb.length ∧
    value 10 qs * value 10 ys + value 10 rs = value 10 xs ∧ value 10 rs < value 10 ys

theorem divMagnitudes_spec (limit : Nat) {pre ra rb : Cells} {xs ys : List Nat}
    (h : Divisor (pre ++ (digitCells ys ++ some 0 :: rb)) pa.length ys)
    (hpre : pre.length = pa.length) (hxs : Decimal xs) (hcanonical : Canonical xs)
    (hlimit : xs.length + 1 ≤ limit) (hint : xs.length < 2 ^ 31) :
    Quotient pa pre ra rb xs ys
      (divMagnitudes limit pa.length (pa ++ (digitCells xs ++ some 0 :: ra)) xs.length
        (pre ++ (digitCells ys ++ some 0 :: rb)) ys.length) := by
  have hpos := length_pos_of_ne_nil hcanonical.1
  have hlt := value_lt (b := 10) (by decide) hxs
  have hcopy := copyCells_digits (some 0 :: ra) [some 0] pa [] (List.replicate xs.length none)
    length_replicate
  have hzeros := zeroCells_spec (some 0 :: ra) xs.length pa (digitCells xs) (digitCells_length xs)
  have hroom : value 10 xs < value 10 ys * 10 ^ xs.length :=
    Nat.lt_of_lt_of_le hlt (Nat.le_mul_of_pos_left _ (Nat.pos_of_ne_zero h.nonzero))
  have hstart : Dividing ys xs.length (value 10 xs) [] xs.length xs :=
    ⟨Decimal.nil, hxs, hcanonical, Nat.zero_add _,
      by rw [value_nil, Nat.zero_mul, Nat.zero_mul, Nat.zero_add], hroom⟩
  obtain ⟨s, us, m, ds, hloop, hs, hd, hle⟩ := divLoop_spec (some 0 :: ra) h
    (2 * xs.length + 2) [] xs.length xs _ ⟨[], rfl⟩ hstart (by omega)
  obtain ⟨qs, rs, rb', hlast, hqs, hqlen, hrs, hrcan, hrb, hsum, hsmall⟩ :=
    divLast_spec h hpre hs hd hpos hlt hle
  have hqne : qs ≠ [] := ne_nil_of_length_pos (by omega)
  obtain ⟨ra', hcpz, hra⟩ := chrCpz_spec false false ra hqs hqne
  rw [signOf, map_nil, nil_append, nil_append] at hcpz
  rw [nil_append, length_nil] at hcopy hloop
  unfold divMagnitudes
  rw [if_neg (by omega), if_neg (by omega), hcopy, hzeros]
  dsimp only
  rw [nil_append] at hcopy hloop ⊢
  rw [hloop]
  dsimp only
  rw [hlast]
  dsimp only
  rw [drop_left, take_left, hcpz]
  exact ⟨strip qs, rs, ra', rb', rfl, fun d hd => hqs d (mem_strip hd), strip_canonical hqne, hrs,
    hrcan, by omega, hrb, by rw [strip_value]; exact hsum, hsmall⟩

/-- The test before the division: is the dividend smaller than the divisor? -/
theorem smaller_iff (x y : Signed) (hy : y.magnitude ≠ 0) :
    ∃ order, (if x.digits.length = y.digits.length then
        strCompare (digitChars x.digits) (digitChars y.digits) else some 0) = some order ∧
      ((digitChars x.digits).head? = some 48 ∨ y.digits.length > x.digits.length ∨
          y.digits.length = x.digits.length ∧ order < 0 ↔ x.magnitude < y.magnitude) := by
  have hhead : (digitChars x.digits).head? = some 48 → x.magnitude < y.magnitude := fun h => by
    rw [(head_zero_iff x).mp h]
    exact Nat.pos_of_ne_zero hy
  rcases Nat.lt_trichotomy x.digits.length y.digits.length with hlt | heq | hgt
  · refine ⟨0, if_neg (Nat.ne_of_lt hlt), ?_⟩
    exact iff_of_true (.inr (.inl hlt)) (Signed.magnitude_lt_of_length hlt)
  · obtain ⟨order, horder, hless, -, -⟩ := strCompare_digitChars x.decimal y.decimal heq
    refine ⟨order, by rw [if_pos heq, horder], ?_⟩
    have hiff : order < 0 ↔ x.magnitude < y.magnitude := hless
    constructor
    · rintro (hzero | hlong | ⟨-, hneg⟩)
      · exact hhead hzero
      · omega
      · exact hiff.mp hneg
    · intro h
      exact .inr (.inr ⟨heq.symm, hiff.mpr h⟩)
  · refine ⟨0, if_neg (Nat.ne_of_gt hgt), ?_⟩
    have hlarger := Signed.magnitude_lt_of_length hgt
    constructor
    · rintro (hzero | hlong | ⟨hlen, -⟩)
      · exact hhead hzero
      · omega
      · omega
    · intro h
      omega

theorem signOf_length (signsym minus : Bool) :
    ((signOf signsym minus).map some).length = signsym.toNat := by
  cases signsym <;> rfl

/-- What `ChrDiv` does behind the signs: a smaller dividend is the rest, and the quotient is zero. -/
theorem divDigits_start {signsym : Bool} {limit addrA addrB : Nat} {x y : Signed} {pa pre ra rb : Cells}
    (hlenA : pa.length = signsym.toNat) (hlenB : pre.length = signsym.toNat) (hy : y.magnitude ≠ 0)
    (hapart : addrA + (x.digits.length + 2) ≤ addrB ∨ addrB + (y.digits.length + 2) ≤ addrA) :
    divDigits limit addrA addrB signsym.toNat
      (pa ++ (digitCells x.digits ++ some 0 :: ra)) (pre ++ (digitCells y.digits ++ some 0 :: rb)) =
      if x.magnitude < y.magnitude then
        if x.digits.length ≥ 2 ^ 31 then none
        else
          match (copyCells (pa ++ (digitCells x.digits ++ some 0 :: ra)) x.digits.length pa.length
              pre.length (pre ++ (digitCells y.digits ++ some 0 :: rb))).bind
                fun b => put b (pre.length + x.digits.length) 0,
              (put (pa ++ (digitCells x.digits ++ some 0 :: ra)) pa.length 48).bind
                fun a => put a (pa.length + 1) 0 with
          | some b, some a => some ⟨a, b, false⟩
          | _, _ => none
      else divMagnitudes limit pa.length (pa ++ (digitCells x.digits ++ some 0 :: ra))
        x.digits.length (pre ++ (digitCells y.digits ++ some 0 :: rb)) y.digits.length := by
  have hxpos := length_pos_of_ne_nil x.canonical.1
  have hypos := length_pos_of_ne_nil y.canonical.1
  have hbit : signsym.toNat ≤ 1 := Bool.toNat_le signsym
  obtain ⟨order, horder, hsmaller⟩ := smaller_iff x y hy
  have hdropX : (pa ++ (digitCells x.digits ++ some 0 :: ra)).drop signsym.toNat =
      digitCells x.digits ++ some 0 :: ra := by rw [← hlenA, drop_left]
  have hdropY : (pre ++ (digitCells y.digits ++ some 0 :: rb)).drop signsym.toNat =
      digitCells y.digits ++ some 0 :: rb := by rw [← hlenB, drop_left]
  unfold divDigits
  rw [hdropX, hdropY, str_digits ra x.decimal, str_digits rb y.decimal, hlenA, hlenB]
  dsimp only
  rw [countDigits_digitChars x.decimal, countDigits_digitChars y.decimal]
  dsimp only
  rw [if_neg (by omega), if_neg (by omega), if_neg (fun h => hy ((head_zero_iff y).mp h)), horder]
  dsimp only
  exact if_congr hsmaller rfl rfl

/-- `ChrDiv` behind the signs, for operands in buffers that are apart. -/
theorem divDigits_spec (signsym : Bool) (limit addrA addrB : Nat) (minusA minusB : Bool)
    (x y : Signed) (ra rb : Cells) (hy : y.magnitude ≠ 0)
    (hapart : addrA + (x.digits.length + 2) ≤ addrB ∨ addrB + (y.digits.length + 2) ≤ addrA) :
    (x.digits.length < 2 ^ 31 → x.magnitude < y.magnitude ∨ x.digits.length + 1 ≤ limit →
      Quotient ((signOf signsym minusA).map some) ((signOf signsym minusB).map some) ra rb x.digits
        y.digits
        (divDigits limit addrA addrB signsym.toNat
          ((signOf signsym minusA).map some ++ (digitCells x.digits ++ some 0 :: ra))
          ((signOf signsym minusB).map some ++ (digitCells y.digits ++ some 0 :: rb)))) ∧
    (y.magnitude ≤ x.magnitude → limit < x.digits.length + 1 →
      divDigits limit addrA addrB signsym.toNat
          ((signOf signsym minusA).map some ++ (digitCells x.digits ++ some 0 :: ra))
          ((signOf signsym minusB).map some ++ (digitCells y.digits ++ some 0 :: rb)) =
        some ⟨(signOf signsym minusA).map some ++ (digitCells x.digits ++ some 0 :: ra),
          (signOf signsym minusB).map some ++ (digitCells y.digits ++ some 0 :: rb), true⟩) := by
  have hxpos := length_pos_of_ne_nil x.canonical.1
  generalize hpa : (signOf signsym minusA).map some = pa
  generalize hpre : (signOf signsym minusB).map some = pre
  have hlenA : pa.length = signsym.toNat := by rw [← hpa, signOf_length]
  have hlenB : pre.length = signsym.toNat := by rw [← hpre, signOf_length]
  have hdivisor : Divisor (pre ++ (digitCells y.digits ++ some 0 :: rb)) pa.length y.digits :=
    ⟨⟨pre, some 0 :: rb, rfl, hlenB.trans hlenA.symm⟩, y.decimal, y.canonical, hy⟩
  rw [divDigits_start hlenA hlenB hy hapart]
  refine ⟨fun hint hfit => ?_, fun hle hlong => ?_⟩
  · by_cases hless : x.magnitude < y.magnitude
    · -- the quotient is zero, and the dividend is the rest
      have hxy : x.digits.length ≤ y.digits.length := by
        by_contra hgt
        have hlarger := Signed.magnitude_lt_of_length (Nat.lt_of_not_le hgt)
        omega
      obtain ⟨rb', hput, hrb⟩ := putDigits_spec pa (some 0 :: ra) pre rb hxy
      obtain ⟨ra', hzero, hra⟩ := putZero_spec pa x.digits ra hxpos
      rw [if_pos hless, if_neg (by omega), hput, hzero]
      refine ⟨[0], x.digits, ra', rb', rfl, decimal_cons.mpr ⟨by decide, Decimal.nil⟩,
        ⟨by decide, fun _ => rfl⟩, x.decimal, x.canonical, hra, hrb, ?_, hless⟩
      rw [value_singleton, Nat.zero_mul, Nat.zero_add]
    · rw [if_neg hless]
      exact divMagnitudes_spec limit hdivisor (hlenB.trans hlenA.symm) x.decimal x.canonical
        (hfit.resolve_left hless) hint
  · rw [if_neg (by omega), divMagnitudes, if_pos hlong]

/-- The signs of the result, put over those of the operands. -/
theorem chrDiv_signs (signsym : Bool) (limit addrA addrB : Nat) (x y : Signed) (ra rb : Cells) :
    chrDiv signsym limit addrA addrB ((x.operand signsym).map some ++ ra)
        ((y.operand signsym).map some ++ rb) =
      divDigits limit addrA addrB signsym.toNat
        ((signOf signsym (xor x.minus y.minus)).map some ++ (digitCells x.digits ++ some 0 :: ra))
        ((signOf signsym x.minus).map some ++ (digitCells y.digits ++ some 0 :: rb)) := by
  rw [operand_cells, operand_cells]
  cases signsym with
  | true =>
    unfold chrDiv
    cases x.minus <;> cases y.minus <;> rfl
  | false =>
    obtain ⟨d, ds, hd⟩ := exists_cons_of_ne_nil x.canonical.1
    obtain ⟨e, es, he⟩ := exists_cons_of_ne_nil y.canonical.1
    have hx := x.decimal
    have hy := y.decimal
    rw [hd] at hx ⊢
    rw [he] at hy ⊢
    have hzero : ¬(digitChar d = 0 ∨ digitChar e = 0) := not_or.mpr
      ⟨digitChar_ne_zero d (decimal_cons.mp hx).1, digitChar_ne_zero e (decimal_cons.mp hy).1⟩
    exact if_neg hzero

theorem abs_toInt (x : Signed) : |x.toInt| = x.magnitude := by
  unfold Signed.toInt
  split
  · rw [abs_neg, Nat.abs_cast]
  · exact Nat.abs_cast _

theorem toInt_euclid {x y q r : Signed} (hq : q.minus = xor x.minus y.minus)
    (hr : r.minus = x.minus) (hsum : q.magnitude * y.magnitude + r.magnitude = x.magnitude)
    (hlt : r.magnitude < y.magnitude) :
    x.toInt = q.toInt * y.toInt + r.toInt ∧ |r.toInt| < |y.toInt| ∧
      q.toInt = x.toInt.tdiv y.toInt := by
  have hdiv : x.magnitude / y.magnitude = q.magnitude := by
    refine Nat.div_eq_of_lt_le ?_ ?_
    · omega
    · rw [Nat.add_mul, Nat.one_mul]
      omega
  have hcast : (q.magnitude : Int) * y.magnitude + r.magnitude = x.magnitude := by
    exact_mod_cast hsum
  have htdiv : (x.magnitude : Int).tdiv y.magnitude = q.magnitude := by
    rw [← Int.ofNat_tdiv, hdiv]
  refine ⟨?_, ?_, ?_⟩
  · unfold Signed.toInt
    rw [hq, hr, ← hcast]
    cases x.minus <;> cases y.minus <;> simp <;> ring
  · rw [abs_toInt, abs_toInt]
    exact_mod_cast hlt
  · unfold Signed.toInt
    rw [hq]
    cases x.minus <;> cases y.minus <;> simp [Int.neg_tdiv, Int.tdiv_neg, htdiv]

/-- Division is Euclidean where the copy of the dividend fits in `malc_limit` or is not
needed: the quotient truncated toward zero is left in the first buffer, and the remainder, with the
sign of the dividend, in the second.  Neither buffer changes its length.  Where the
copy does not fit, the call fails and leaves the digits as they are. -/
theorem chrDiv_euclid (limit addrA addrB : Nat) (x y : Signed) (ra rb : Cells)
    (hy : y.toInt ≠ 0)
    (hapart : addrA + x.chars.length ≤ addrB ∨ addrB + y.chars.length ≤ addrA) :
    (x.digits.length < 2 ^ 31 → x.magnitude < y.magnitude ∨ x.digits.length + 1 ≤ limit →
      ∃ (q r : Signed) (ra' rb' : Cells),
        chrDiv true limit addrA addrB (x.chars.map some ++ ra) (y.chars.map some ++ rb) =
          some ⟨q.chars.map some ++ ra', r.chars.map some ++ rb', false⟩ ∧
        (q.chars.map some ++ ra').length = (x.chars.map some ++ ra).length ∧
        (r.chars.map some ++ rb').length = (y.chars.map some ++ rb).length ∧
        x.toInt = q.toInt * y.toInt + r.toInt ∧ |r.toInt| < |y.toInt| ∧ r.minus = x.minus ∧
        q.toInt = x.toInt.tdiv y.toInt) ∧
    (y.magnitude ≤ x.magnitude → limit < x.digits.length + 1 →
      ∃ c d, chrDiv true limit addrA addrB (x.chars.map some ++ ra) (y.chars.map some ++ rb) =
        some ⟨some c :: (digitCells x.digits ++ some 0 :: ra),
          some d :: (digitCells y.digits ++ some 0 :: rb), true⟩) := by
  have hmag : y.magnitude ≠ 0 := fun h => hy (by
    unfold Signed.toInt
    rw [h]
    split <;> rfl)
  rw [length_chars, length_chars] at hapart
  obtain ⟨hfits, hlong⟩ := divDigits_spec true limit addrA addrB (xor x.minus y.minus) x.minus x y ra
    rb hmag hapart
  rw [← operand_true, ← operand_true, chrDiv_signs]
  refine ⟨fun hint hfit => ?_, fun hle hover => ⟨_, _, hlong hle hover⟩⟩
  obtain ⟨qs, rs, ra', rb', hr, hqs, hqcan, hrs, hrcan, hra, hrb, hsum, hlt⟩ := hfits hint hfit
  let q : Signed := ⟨xor x.minus y.minus, qs, hqs, hqcan⟩
  let r : Signed := ⟨x.minus, rs, hrs, hrcan⟩
  have hsum' : q.magnitude * y.magnitude + r.magnitude = x.magnitude := hsum
  have hlt' : r.magnitude < y.magnitude := hlt
  refine ⟨q, r, ra', rb', ?_, ?_, ?_, ?_, ?_, rfl, ?_⟩
  · rw [hr, ← operand_true, ← operand_true, operand_cells, operand_cells]
  · rw [length_append, length_append, length_map, length_map, operand_true,
      length_chars, length_chars]
    have hq : q.digits.length = qs.length := rfl
    omega
  · rw [length_append, length_append, length_map, length_map, operand_true,
      length_chars, length_chars]
    have hr : r.digits.length = rs.length := rfl
    omega
  · exact (toInt_euclid (q := q) (r := r) rfl rfl hsum' hlt').1
  · exact (toInt_euclid (q := q) (r := r) rfl rfl hsum' hlt').2.1
  · exact (toInt_euclid (q := q) (r := r) rfl rfl hsum' hlt').2.2

/-- `1111 / 11`, with room and without. -/
theorem chrDiv_euclid_ones :
    (∃ (q r : Signed) (ra' rb' : Cells),
      chrDiv true 0x1000 0 6 ((ones 3).chars.map some ++ []) ((ones 1).chars.map some ++ []) =
        some ⟨q.chars.map some ++ ra', r.chars.map some ++ rb', false⟩ ∧
      (ones 3).toInt = q.toInt * (ones 1).toInt + r.toInt) ∧
    ∃ a b, chrDiv true 4 0 6 ((ones 3).chars.map some ++ []) ((ones 1).chars.map some ++ []) =
      some ⟨a, b, true⟩ := by
  have h := chrDiv_euclid 0x1000 0 6 (ones 3) (ones 1) [] [] (by decide)
    (by decide)
  have h' := chrDiv_euclid 4 0 6 (ones 3) (ones 1) [] [] (by decide)
    (by decide)
  obtain ⟨q, r, ra', rb', hr, -, -, hsum, -⟩ := h.1 (by decide) (.inr (by decide))
  obtain ⟨c, d, hfail⟩ := h'.2 (by decide) (by decide)
  exact ⟨⟨q, r, ra', rb', hr, hsum⟩, _, _, hfail⟩

/-- With the default `malc_limit`, a number of 4096 digits is not divided by one. -/
theorem chrDiv_long_fails :
    ¬∀ x y : Signed, y.toInt ≠ 0 → ∃ (q r : Signed) (ra' rb' : Cells),
      chrDiv true 0x1000 0 x.chars.length (x.chars.map some ++ []) (y.chars.map some ++ []) =
        some ⟨q.chars.map some ++ ra', r.chars.map some ++ rb', false⟩ ∧
      x.toInt = q.toInt * y.toInt + r.toInt := by
  intro h
  obtain ⟨q, r, ra', rb', hr, -⟩ := h (ones 4095) (ones 0) (by decide)
  have hlong : 0x1000 < (ones 4095).digits.length + 1 := by
    unfold ones
    dsimp only
    rw [length_cons, length_replicate]
    omega
  have hle : (ones 0).magnitude ≤ (ones 4095).magnitude := by
    refine Nat.le_of_lt (Signed.magnitude_lt_of_length ?_)
    unfold ones
    dsimp only
    rw [length_cons, length_cons, length_replicate, length_replicate]
    omega
  have hfail := (divDigits_spec true 0x1000 0 (ones 4095).chars.length
    (xor (ones 4095).minus (ones 0).minus) (ones 4095).minus (ones 4095) (ones 0) [] [] (by decide)
    (.inl (by rw [length_chars, Nat.zero_add]))).2 hle hlong
  rw [← operand_true (ones 0), ← operand_true (ones 4095), chrDiv_signs, operand_true, hfail] at hr
  exact Bool.noConfusion (congrArg Division.fail (Option.some.inj hr))

end Unisym.Text
