/-
# `ChrMul` — products of decimal strings

`ChrMul` adds the products of the digits into a buffer of zeros, each with
`DigInc`, whose carry walks to the left as long as it finds a nine.  Nothing in
`DigInc` stops it before the buffer: `Sums.low` is the lowest place it has come to.

That the carry stays among the digits is a fact about the numbers
(`digInc_spec`): what has been added so far is at most the product, and the
product has as many digits as the operands have together (`mulRow_spec`,
`mulRows_spec`).
-/
import Unisym.Text.ChrarSpec

namespace Unisym.Text

open Digits List

/-! ## `DigInc` -/

/-- The walk of `DigInc` to the left from `posi` on: nines become zeros, and the
first other digit is raised.  The place it ends at comes with the cells. -/
def carryLeft : Nat → Cells → Option (Cells × Nat)
  | posi, q =>
      match cellAt q posi with
      | none => none
      | some c =>
          if c + 1 > 57 then
            match put q posi (c + 1 - 10), posi with
            | some q, posi + 1 => carryLeft posi q
            | _, _ => none
          else (put q posi (c + 1)).map (·, posi)

def digInc (ascii : UInt8) (posi : Nat) (q : Cells) : Option (Cells × Nat) :=
  match cellAt q posi with
  | none => none
  | some c =>
      let ascii := c + (ascii - 48)
      match put q posi ascii with
      | none => none
      | some q =>
          if ascii ≤ 57 then some (q, posi)
          else
            match put q posi (ascii - 10), posi with
            | some q, posi + 1 => carryLeft posi q
            | _, _ => none

/-! ## `ChrMul` -/

/-- The buffer of the result, and the lowest place a carry has come to. -/
structure Sums where
  cells : Cells
  low : Nat

def Sums.digInc (s : Sums) (digit p j : Nat) : Option Sums :=
  if j ≤ p then
    (Text.digInc (UInt8.ofNat (digit + 48)) (p - j) s.cells).map fun r => ⟨r.1, min s.low r.2⟩
  else none

/-- The inner loop, `n` rounds before its end, with the carry that follows it; `y` is
the digit of `b`, and `p` points to the place of its first product. -/
def mulRow (a : Chars) (endofa y p : Nat) : (n j carryInt : Nat) → Sums → Option Sums
  | 0, j, carryInt, s => if carryInt ≠ 0 then s.digInc carryInt p j else some s
  | n + 1, j, carryInt, s =>
      match charAt a ((endofa : Int) - j) with
      | none => none
      | some x =>
          let tmp := (x.toNat - 48) * y + carryInt
          let carryInt := if tmp > 9 then tmp / 10 else 0
          (s.digInc (tmp - 10 * carryInt) p j).bind (mulRow a endofa y p n (j + 1) carryInt)

/-- The outer loop, `n` rounds before its end. -/
def mulRows (a : Chars) (endofa : Nat) (b : Chars) (endofb siz : Nat) : (n i : Nat) → Sums →
    Option Sums
  | 0, _, s => some s
  | n + 1, i, s =>
      match charAt b ((endofb : Int) - i) with
      | none => none
      | some y =>
          (mulRow a endofa (y.toNat - 48) (siz - 2 - i) (endofa + 1) 0 0 s).bind
            (mulRows a endofa b endofb siz n (i + 1))

/-- `salc(siz)`, `MemSet(q, '0', siz - 1)` and, in signed mode, the sign. -/
def newProduct (signsym : Bool) (siz : Nat) (minus : Bool) : Option Cells :=
  let q := List.replicate (siz - 1) (some 48) ++ [some 0]
  if signsym then put q 0 (if minus then 45 else 43) else some q

/-- `ChrMul` from the allocation on, where `a` is not the shorter operand.  The loops
count in `int`. -/
def mulMagnitudes (signsym : Bool) (limit : Nat) (a : Chars) (lengthA : Nat) (b : Chars)
    (lengthB : Nat) (minus : Bool) : Option (Result × Nat) :=
  let siz := lengthA + lengthB + 1 + signsym.toNat
  if siz > limit then some (.null, 0)
  else if lengthA ≥ 2 ^ 31 then none
  else
    match newProduct signsym siz minus with
    | none => none
    | some q =>
        match mulRows a (lengthA - 1) b (lengthB - 1) siz lengthB 0 ⟨q, siz⟩ with
        | none => none
        | some s => (chrCpz s.cells).map fun q => (.string q, s.low)

/-- `ChrMul`; the operands are not null.  The lowest place of a carry comes with the
result. -/
def chrMul (signsym : Bool) (limit : Nat) (a b : Chars) : Option (Result × Nat) :=
  match a.head?, b.head? with
  | some x, some y =>
      if x = 0 ∨ y = 0 then some (.null, 0)
      else
        match takeSign a, takeSign b with
        | some (a, signA), some (b, signB) =>
            match countDigits a, countDigits b with
            | some lengthA, some lengthB =>
                if lengthA = 0 ∨ lengthB = 0 then some (.null, 0)
                else
                  match (if lengthA = lengthB then strCompare a b else some 0) with
                  | none => none
                  | some order =>
                      if lengthA < lengthB ∨ lengthA = lengthB ∧ order < 0 then
                        mulMagnitudes signsym limit b lengthB a lengthA (xor signA signB)
                      else mulMagnitudes signsym limit a lengthA b lengthB (xor signA signB)
            | _, _ => none
        | _, _ => none
  | _, _ => none

/-! ## `DigInc` adds -/

theorem digit_one : ∀ d < 10,
    (digitChar d + 1 > 57 ↔ d = 9) ∧ (d ≠ 9 → digitChar d + 1 = digitChar (d + 1)) ∧
      (digitChar 9 + 1 - 10 = digitChar 0) := by
  decide

theorem digit_add : ∀ d < 10, ∀ e < 10,
    (digitChar d + (UInt8.ofNat (e + 48) - 48) ≤ 57 ↔ d + e < 10) ∧
      (d + e < 10 → digitChar d + (UInt8.ofNat (e + 48) - 48) = digitChar (d + e)) ∧
      (10 ≤ d + e →
        digitChar d + (UInt8.ofNat (e + 48) - 48) - 10 = digitChar (d + e - 10)) := by
  decide

theorem decimal_zeros (n : Nat) : Decimal (List.replicate n 0) := fun d hd => by
  rw [eq_of_mem_replicate hd]
  decide

theorem digitCells_append (xs ys : List Nat) :
    digitCells (xs ++ ys) = digitCells xs ++ digitCells ys := map_append

theorem digitCells_length (xs : List Nat) : (digitCells xs).length = xs.length := length_map _

theorem digitCells_concat (xs : List Nat) (d : Nat) (post : Cells) :
    digitCells (xs ++ [d]) ++ post = digitCells xs ++ some (digitChar d) :: post := by
  rw [digitCells_append, append_assoc]
  rfl

theorem cellAt_digit (p : Cells) (xs : List Nat) (d : Nat) (post : Cells) :
    cellAt (p ++ (digitCells (xs ++ [d]) ++ post)) (p.length + xs.length) =
      some (digitChar d) := by
  have h := cellAt_append (p ++ digitCells xs) (some (digitChar d)) post
  rw [length_append, digitCells_length, append_assoc] at h
  rw [digitCells_concat]
  exact h

theorem put_behind (p : Cells) (xs : List Nat) (x : Option UInt8) (post : Cells) (c : UInt8) :
    put (p ++ (digitCells xs ++ x :: post)) (p.length + xs.length) c =
      some (p ++ (digitCells xs ++ some c :: post)) := by
  have h := put_append (p ++ digitCells xs) x post c
  rwa [length_append, digitCells_length, append_assoc, append_assoc] at h

/-- The digits up to the place `k` from the right, and those behind it. -/
theorem exists_place {ws : List Nat} {k : Nat} (hk : k < ws.length) :
    ∃ us d vs, ws = (us ++ [d]) ++ vs ∧ vs.length = k := by
  have hsplit := take_append_drop (ws.length - k) ws
  obtain ⟨us, d, hus⟩ := (eq_nil_or_concat' (ws.take (ws.length - k))).resolve_left
    (fun h => by
      have hlen := congrArg List.length h
      rw [length_take, length_nil] at hlen
      omega)
  exact ⟨us, d, ws.drop (ws.length - k), by rw [← hus, hsplit], by rw [length_drop]; omega⟩

/-- What a walk to the left comes to, starting at the last of the digits `xs`: digits
whose number is greater by `d`, and a place among them. -/
def Raised (p : Cells) (xs : List Nat) (post : Cells) (d : Nat) (r : Option (Cells × Nat)) : Prop :=
  ∃ ys place, r = some (p ++ (digitCells ys ++ post), place) ∧ Decimal ys ∧
    ys.length = xs.length ∧ value 10 ys = value 10 xs + d ∧ p.length ≤ place

theorem Raised.concat {p : Cells} {us : List Nat} {d e n k : Nat} {post : Cells} {r : Option (Cells × Nat)}
    (h : Raised p us (some (digitChar e) :: post) n r) (he : e < 10)
    (hval : ∀ v, v = value 10 us + n → v * 10 + e = value 10 us * 10 + d + k) :
    Raised p (us ++ [d]) post k r := by
  obtain ⟨ys, place, rfl, hys, hylen, hyval, hplace⟩ := h
  refine ⟨ys ++ [e], place, by rw [digitCells_concat], decimal_append.mpr ⟨hys, decimal_cons.mpr
    ⟨he, Decimal.nil⟩⟩, ?_, ?_, hplace⟩
  · rw [length_append, length_append, hylen]
    rfl
  · rw [value_concat, value_concat]
    exact hval _ hyval

theorem raised_self {p : Cells} {us : List Nat} (hus : Decimal us) (post : Cells) :
    Raised p us post 0 (some (p ++ (digitCells us ++ post), p.length + us.length)) :=
  ⟨us, _, rfl, hus, rfl, rfl, Nat.le_add_right _ _⟩

theorem carryLeft_spec (p : Cells) (us : List Nat) (d : Nat) (post : Cells) (hds : Decimal (us ++ [d]))
    (hlt : value 10 (us ++ [d]) + 1 < 10 ^ (us.length + 1)) :
    Raised p (us ++ [d]) post 1 (carryLeft (p.length + us.length) (p ++ (digitCells (us ++ [d]) ++ post))) := by
  obtain ⟨hus, hd⟩ := decimal_append.mp hds
  obtain ⟨hd, -⟩ := decimal_cons.mp hd
  obtain ⟨hnine, hother, hzero⟩ := digit_one d hd
  rw [carryLeft, cellAt_digit, digitCells_concat]
  dsimp only
  rw [value_concat, Nat.pow_succ] at hlt
  by_cases h9 : d = 9
  · -- a nine: the walk goes on with the digits before it
    subst h9
    rw [if_pos (hnine.mpr rfl), hzero, put_behind]
    cases us using List.reverseRecOn with
    | nil =>
      rw [value_nil, length_nil] at hlt
      omega
    | append_singleton us u =>
      rw [length_append, length_singleton, ← Nat.add_assoc]
      rw [length_append, length_singleton] at hlt
      exact (carryLeft_spec p us u (some (digitChar 0) :: post) hus (by omega)).concat (by decide)
        fun v hv => by omega
  · rw [if_neg (fun h => h9 (hnine.mp h)), hother h9, put_behind]
    exact (raised_self hus _).concat (by omega) fun v hv => by omega
termination_by us.length

theorem digInc_last (p : Cells) (us : List Nat) (d e : Nat) (post : Cells)
    (hds : Decimal (us ++ [d])) (he : e < 10)
    (hlt : value 10 (us ++ [d]) + e < 10 ^ (us.length + 1)) :
    Raised p (us ++ [d]) post e
      (digInc (UInt8.ofNat (e + 48)) (p.length + us.length)
        (p ++ (digitCells (us ++ [d]) ++ post))) := by
  obtain ⟨hus, hd⟩ := decimal_append.mp hds
  obtain ⟨hd, -⟩ := decimal_cons.mp hd
  obtain ⟨hsmall, hsum, hover⟩ := digit_add d hd e he
  rw [digInc, cellAt_digit, digitCells_concat]
  dsimp only
  rw [put_behind]
  dsimp only
  rw [value_concat, Nat.pow_succ] at hlt
  by_cases hle : d + e < 10
  · rw [if_pos (hsmall.mpr hle), hsum hle]
    exact (raised_self hus _).concat hle fun v hv => by omega
  · rw [if_neg (fun h => hle (hsmall.mp h)), hover (by omega), put_behind]
    -- ten or more: one is carried to the digits before
    cases us using List.reverseRecOn with
    | nil =>
      rw [value_nil, length_nil] at hlt
      omega
    | append_singleton us u =>
      rw [length_append, length_singleton, ← Nat.add_assoc]
      rw [length_append, length_singleton] at hlt
      exact (carryLeft_spec p us u (some (digitChar (d + e - 10)) :: post) hus (by omega)).concat (by omega)
        fun v hv => by omega

/-- `DigInc` at the place `k` from the right adds `e * 10 ^ k`. -/
theorem digInc_spec (p : Cells) {ws : List Nat} {e k place : Nat} (post : Cells) (hws : Decimal ws)
    (he : e < 10) (hplace : place + k + 1 = p.length + ws.length) (hk : k < ws.length)
    (hlt : value 10 ws + e * 10 ^ k < 10 ^ ws.length) :
    Raised p ws post (e * 10 ^ k)
      (digInc (UInt8.ofNat (e + 48)) place (p ++ (digitCells ws ++ post))) := by
  obtain ⟨us, d, vs, rfl, rfl⟩ := exists_place hk
  obtain ⟨hus, hvs⟩ := decimal_append.mp hws
  have hlen : ((us ++ [d]) ++ vs).length = us.length + 1 + vs.length := by
    rw [length_append, length_append, length_singleton]
  have hpos : 0 < 10 ^ vs.length := Nat.pow_pos (by decide)
  rw [hlen] at hplace
  rw [hlen, value_append, Nat.pow_add] at hlt
  have htop : value 10 (us ++ [d]) + e < 10 ^ (us.length + 1) := by
    refine Nat.lt_of_mul_lt_mul_right (a := 10 ^ vs.length) ?_
    rw [Nat.add_mul]
    omega
  obtain ⟨ys, low, hr, hys, hylen, hyval, hlow⟩ :=
    digInc_last p us d e (digitCells vs ++ post) hus he htop
  have hpl : place = p.length + us.length := by omega
  refine ⟨ys ++ vs, low, ?_, decimal_append.mpr ⟨hys, hvs⟩, ?_, ?_, hlow⟩
  · rw [hpl, digitCells_append (us ++ [d]), append_assoc, hr, digitCells_append,
      append_assoc]
  · rw [length_append, length_append, hylen]
  · rw [value_append, value_append, hyval, Nat.add_mul]
    omega

/-! ## The loops add products -/

/-- The sums have grown by `d`, and no carry has come before the digits. -/
def Added (p : Cells) (ws : List Nat) (post : Cells) (d : Nat) (r : Option Sums) : Prop :=
  ∃ ys low, r = some ⟨p ++ (digitCells ys ++ post), low⟩ ∧ Decimal ys ∧ ys.length = ws.length ∧
    value 10 ys = value 10 ws + d ∧ p.length ≤ low

theorem Sums.digInc_spec (p : Cells) {ws : List Nat} {e k j place low : Nat} (post : Cells)
    (hws : Decimal ws) (he : e < 10) (hj : j ≤ place) (hplace : place - j + k + 1 = p.length + ws.length)
    (hk : k < ws.length) (hlt : value 10 ws + e * 10 ^ k < 10 ^ ws.length) (hlow : p.length ≤ low) :
    Added p ws post (e * 10 ^ k)
      (Sums.digInc ⟨p ++ (digitCells ws ++ post), low⟩ e place j) := by
  obtain ⟨ys, l, hr, hys, hylen, hyval, hl⟩ := Text.digInc_spec p post hws he hplace hk hlt
  refine ⟨ys, min low l, ?_, hys, hylen, hyval, Nat.le_min.mpr ⟨hlow, hl⟩⟩
  rw [Sums.digInc, if_pos hj]
  dsimp only
  rw [hr]
  rfl

theorem digitChar_sub : ∀ d < 10, (digitChar d).toNat - 48 = d := by decide

theorem carry_step (tmp : Nat) (h : tmp ≤ 90) :
    tmp - 10 * (if tmp > 9 then tmp / 10 else 0) < 10 ∧ (if tmp > 9 then tmp / 10 else 0) < 10 ∧
      tmp - 10 * (if tmp > 9 then tmp / 10 else 0) + 10 * (if tmp > 9 then tmp / 10 else 0) = tmp := by
  split <;> omega

/-- The inner loop adds the product of the digits that are left, `ra.reverse`, and `y`,
with the carry; `done` are the digits of `a` it has multiplied. -/
theorem mulRow_spec (p : Cells) (post : Cells) {y i place : Nat} (hy : y < 10) :
    ∀ (ra done ws : List Nat) (carryInt low : Nat), Decimal ra → Decimal ws → carryInt < 10 →
    place + i + 1 = p.length + ws.length → i + (ra.length + done.length) < ws.length →
    value 10 ws + (value 10 ra.reverse * y + carryInt) * 10 ^ (i + done.length) < 10 ^ ws.length →
    p.length ≤ low →
    Added p ws post ((value 10 ra.reverse * y + carryInt) * 10 ^ (i + done.length))
      (mulRow (digitChars (ra.reverse ++ done)) (ra.length + done.length - 1) y place ra.length
        done.length carryInt ⟨p ++ (digitCells ws ++ post), low⟩) := by
  intro ra
  induction ra with
  | nil =>
    intro done ws carryInt low _ hws hcarry hplace hlen hlt hlow
    rw [length_nil, Nat.zero_add] at hlen
    rw [reverse_nil, value_nil, Nat.zero_mul, Nat.zero_add] at hlt ⊢
    rw [length_nil, mulRow]
    by_cases hzero : carryInt = 0
    · rw [if_neg (fun h => h hzero), hzero, Nat.zero_mul]
      exact ⟨ws, low, rfl, hws, rfl, rfl, hlow⟩
    · rw [if_pos hzero]
      have hj : done.length ≤ place := by omega
      exact Sums.digInc_spec p post hws hcarry hj (by omega) hlen hlt hlow
  | cons x ra ih =>
    intro done ws carryInt low hra hws hcarry hplace hlen hlt hlow
    obtain ⟨hx, hra⟩ := decimal_cons.mp hra
    rw [length_cons] at hlen ⊢
    rw [reverse_cons, value_concat] at hlt ⊢
    have hread : charAt (digitChars (ra.reverse ++ [x] ++ done))
        (((ra.length + 1 + done.length - 1 : Nat) : Int) - done.length) =
        some (digitChar x) := by
      have h := charAt_digitChars ra.reverse x done
      rw [length_reverse] at h
      rw [append_assoc, singleton_append]
      have hidx : (((ra.length + 1 + done.length - 1 : Nat) : Int) - done.length) = ra.length := by
        omega
      rw [hidx]
      exact h
    rw [mulRow, hread]
    dsimp only
    rw [digitChar_sub x hx]
    have hprod : x * y ≤ 9 * 9 := Nat.mul_le_mul (by omega) (by omega)
    obtain ⟨hdigit, hcarry', hsum⟩ := carry_step (x * y + carryInt) (by omega)
    set c := (if x * y + carryInt > 9 then (x * y + carryInt) / 10 else 0) with hc
    set t := x * y + carryInt - 10 * c with ht
    -- what is added now, and what is left
    have hsplit : ((value 10 ra.reverse * 10 + x) * y + carryInt) * 10 ^ (i + done.length) =
        t * 10 ^ (i + done.length) +
          (value 10 ra.reverse * y + c) * 10 ^ (i + (done.length + 1)) := by
      rw [← Nat.add_assoc, Nat.pow_succ]
      calc ((value 10 ra.reverse * 10 + x) * y + carryInt) * 10 ^ (i + done.length)
          = (value 10 ra.reverse * y * 10 + (x * y + carryInt)) * 10 ^ (i + done.length) := by ring
        _ = (value 10 ra.reverse * y * 10 + (t + 10 * c)) * 10 ^ (i + done.length) := by rw [hsum]
        _ = _ := by ring
    rw [hsplit] at hlt ⊢
    have hj : done.length ≤ place := by omega
    have hk : place - done.length + (i + done.length) + 1 = p.length + ws.length := by omega
    obtain ⟨ys, low', hr, hys, hylen, hyval, hlow'⟩ :=
      Sums.digInc_spec p post hws hdigit hj hk (by omega) (by omega) hlow
    rw [hr, Option.bind_some]
    have hnext := ih (x :: done) ys c low' hra hys hcarry' (by omega)
      (by rw [length_cons]; omega) (by rw [length_cons, hylen, hyval]; omega) hlow'
    rw [length_cons, ← Nat.add_assoc ra.length, Nat.add_right_comm ra.length] at hnext
    obtain ⟨zs, low'', hr', hzs, hzlen, hzval, hlow''⟩ := hnext
    refine ⟨zs, low'', ?_, hzs, hzlen.trans hylen, ?_, hlow''⟩
    · rw [append_assoc, singleton_append]
      exact hr'
    · rw [hzval, hyval, Nat.add_assoc]

/-- The outer loop adds the product of `xs` and the digits that are left, `rb.reverse`. -/
theorem mulRows_spec (p : Cells) (post : Cells) {xs : List Nat} {siz : Nat} (hxs : Decimal xs)
    (hne : xs ≠ []) : ∀ (rb done ws : List Nat) (low : Nat), Decimal rb → Decimal ws →
    ws.length = xs.length + (rb.length + done.length) → siz = p.length + ws.length + 1 →
    value 10 ws + value 10 xs * value 10 rb.reverse * 10 ^ done.length < 10 ^ ws.length →
    p.length ≤ low →
    Added p ws post (value 10 xs * value 10 rb.reverse * 10 ^ done.length)
      (mulRows (digitChars xs) (xs.length - 1) (digitChars (rb.reverse ++ done))
        (rb.length + done.length - 1) siz rb.length done.length
        ⟨p ++ (digitCells ws ++ post), low⟩) := by
  intro rb
  have hpos : 0 < xs.length := length_pos_of_ne_nil hne
  induction rb with
  | nil =>
    intro done ws low _ hws _ _ _ hlow
    rw [reverse_nil, value_nil, Nat.mul_zero, Nat.zero_mul]
    exact ⟨ws, low, rfl, hws, rfl, rfl, hlow⟩
  | cons y rb ih =>
    intro done ws low hrb hws hlen hsiz hlt hlow
    obtain ⟨hy, hrb⟩ := decimal_cons.mp hrb
    rw [length_cons] at hlen ⊢
    rw [reverse_cons, value_concat] at hlt ⊢
    have hread : charAt (digitChars (rb.reverse ++ [y] ++ done))
        (((rb.length + 1 + done.length - 1 : Nat) : Int) - done.length) =
        some (digitChar y) := by
      have h := charAt_digitChars rb.reverse y done
      rw [length_reverse] at h
      rw [append_assoc, singleton_append]
      have hidx : (((rb.length + 1 + done.length - 1 : Nat) : Int) - done.length) = rb.length := by
        omega
      rw [hidx]
      exact h
    rw [mulRows, hread]
    dsimp only
    rw [digitChar_sub y hy]
    -- the row of this digit, and the rows that are left
    have hsplit : value 10 xs * (value 10 rb.reverse * 10 + y) * 10 ^ done.length =
        (value 10 xs * y + 0) * 10 ^ (done.length + 0) +
          value 10 xs * value 10 rb.reverse * 10 ^ (done.length + 1) := by
      rw [Nat.pow_succ]
      ring
    rw [hsplit] at hlt ⊢
    have hplace : siz - 2 - done.length + done.length + 1 = p.length + ws.length := by omega
    have hrow := mulRow_spec p post hy xs.reverse [] ws 0 low (decimal_reverse.mpr hxs) hws
      (by decide) hplace
      (by rw [length_reverse, length_nil]; omega)
      (by rw [reverse_reverse, length_nil]; omega) hlow
    rw [reverse_reverse, length_reverse, length_nil, append_nil,
      Nat.add_zero xs.length] at hrow
    obtain ⟨ys, low', hr, hys, hylen, hyval, hlow'⟩ := hrow
    rw [Nat.sub_add_cancel hpos, hr, Option.bind_some]
    obtain ⟨zs, low'', hr', hzs, hzlen, hzval, hlow''⟩ := ih (y :: done) ys low' hrb hys
      (by rw [hylen, hlen, length_cons]; omega) (by rw [hylen]; exact hsiz)
      (by rw [length_cons, hylen, hyval]; omega) hlow'
    rw [length_cons, ← Nat.add_assoc rb.length, Nat.add_right_comm rb.length] at hr'
    refine ⟨zs, low'', ?_, hzs, hzlen.trans hylen, ?_, hlow''⟩
    · rw [append_assoc, singleton_append]
      exact hr'
    · rw [hzval, hyval, length_cons, Nat.add_assoc]

/-! ## Products -/

/-- The bytes `ChrMul` asks for. -/
def mulSize (xs ys : List Nat) : Nat := xs.length + ys.length + 2

theorem newProduct_eq (signsym : Bool) (k : Nat) (minus : Bool) :
    newProduct signsym (k + 1 + signsym.toNat) minus =
      some ((signOf signsym minus).map some ++ (digitCells (List.replicate k 0) ++ [some 0])) := by
  have hcells : digitCells (List.replicate k 0) = List.replicate k (some 48) := by
    rw [digitCells, map_replicate]
    rfl
  unfold newProduct
  rw [hcells]
  cases signsym with
  | true => exact put_append [] (some 48) (List.replicate k (some 48) ++ [some 0]) (signChar minus)
  | false => rfl

/-- The product of two numbers, once their digits are found. -/
theorem mulMagnitudes_spec (signsym : Bool) (limit : Nat) (minus : Bool) {xs ys : List Nat}
    (hxs : Decimal xs) (hys : Decimal ys) (hx : xs ≠ []) :
    (xs.length + ys.length + 1 + signsym.toNat ≤ limit → xs.length < 2 ^ 31 →
      ∃ r z low, mulMagnitudes signsym limit (digitChars xs) xs.length (digitChars ys) ys.length
          minus = some (r, low) ∧ r.IsOf signsym z ∧ z.minus = minus ∧
        z.magnitude = value 10 xs * value 10 ys ∧ signsym.toNat ≤ low) ∧
    (limit < xs.length + ys.length + 1 + signsym.toNat →
      mulMagnitudes signsym limit (digitChars xs) xs.length (digitChars ys) ys.length minus =
        some (.null, 0)) := by
  unfold mulMagnitudes
  refine ⟨fun hfit hshort => ?_, fun hlong => if_pos hlong⟩
  rw [if_neg (by omega), if_neg (by omega), newProduct_eq]
  have hsign : ((signOf signsym minus).map some).length = signsym.toNat := by cases signsym <;> rfl
  have hbound : value 10 xs * value 10 ys < 10 ^ (xs.length + ys.length) := by
    rw [Nat.pow_add]
    exact Nat.mul_lt_mul'' (value_lt (by decide) hxs) (value_lt (by decide) hys)
  have hlen : (List.replicate (xs.length + ys.length) 0).length = xs.length + ys.length :=
    length_replicate
  have hsiz : xs.length + ys.length + 1 + signsym.toNat = ((signOf signsym minus).map some).length +
      (List.replicate (xs.length + ys.length) 0).length + 1 := by
    rw [hlen, hsign]
    omega
  obtain ⟨ps, low, hs, hps, hpslen, hpsval, hlow⟩ :=
    mulRows_spec ((signOf signsym minus).map some) [some 0] hxs hx ys.reverse []
      (List.replicate (xs.length + ys.length) 0) (xs.length + ys.length + 1 + signsym.toNat)
      (decimal_reverse.mpr hys) (decimal_zeros _)
      (by rw [hlen, length_reverse, length_nil, Nat.add_zero]) hsiz
      (by rw [reverse_reverse, value_replicate_zero, length_nil, Nat.pow_zero, hlen,
        Nat.mul_one, Nat.zero_add]; exact hbound)
      (by rw [hsign]; omega)
  rw [reverse_reverse, append_nil, length_reverse, length_nil,
    Nat.add_zero] at hs
  rw [reverse_reverse, length_nil, value_replicate_zero, Nat.pow_zero, Nat.mul_one,
    Nat.zero_add] at hpsval
  have hpsne : ps ≠ [] := fun h => by
    have hpos := length_pos_of_ne_nil hx
    rw [h, length_nil, hlen] at hpslen
    omega
  obtain ⟨r, z, hcpz, his, hminus, hmag⟩ := result_is signsym minus [] hps hpsne
  refine ⟨r, z, low, ?_, his, hminus, hmag.trans hpsval, by rw [← hsign]; exact hlow⟩
  obtain ⟨q, hq, rfl⟩ := Option.map_eq_some_iff.mp hcpz
  dsimp only
  rw [hs]
  dsimp only
  rw [hq, Option.map_some]

theorem takeSign_operand {signsym : Bool} {minus : Bool} {ds : List Nat}
    (hsign : minus = true → signsym = true) (hds : Decimal ds) (hne : ds ≠ []) :
    takeSign (signOf signsym minus ++ digitChars ds) = some (digitChars ds, minus) := by
  cases signsym with
  | true => exact takeSign_signed minus hds hne
  | false =>
    have hplus : minus = false := by
      cases minus with
      | false => rfl
      | true => exact absurd (hsign rfl) (by decide)
    rw [hplus]
    exact takeSign_digitChars hds hne

theorem head_operand (signsym minus : Bool) {ds : List Nat} (hds : Decimal ds) (hne : ds ≠ []) :
    ∃ c, (signOf signsym minus ++ digitChars ds).head? = some c ∧ c ≠ 0 := by
  cases signsym with
  | true => exact ⟨signChar minus, rfl, signChar_ne_zero minus⟩
  | false =>
    obtain ⟨d, ds, rfl⟩ := exists_cons_of_ne_nil hne
    exact ⟨digitChar d, rfl, digitChar_ne_zero d (decimal_cons.mp hds).1⟩

theorem chrMul_digits (signsym : Bool) (limit : Nat) (signA signB : Bool) {xs ys : List Nat}
    (hsignA : signA = true → signsym = true) (hsignB : signB = true → signsym = true)
    (hxs : Decimal xs) (hys : Decimal ys) (hx : xs ≠ []) (hy : ys ≠ []) :
    (xs.length + ys.length + 1 + signsym.toNat ≤ limit → xs.length < 2 ^ 31 → ys.length < 2 ^ 31 →
      ∃ r z low, chrMul signsym limit (signOf signsym signA ++ digitChars xs)
          (signOf signsym signB ++ digitChars ys) = some (r, low) ∧ r.IsOf signsym z ∧
        z.minus = xor signA signB ∧ z.magnitude = value 10 xs * value 10 ys ∧
        signsym.toNat ≤ low) ∧
    (limit < xs.length + ys.length + 1 + signsym.toNat →
      chrMul signsym limit (signOf signsym signA ++ digitChars xs)
        (signOf signsym signB ++ digitChars ys) = some (.null, 0)) := by
  have hxpos := length_pos_of_ne_nil hx
  have hypos := length_pos_of_ne_nil hy
  -- the order of the operands does not matter
  obtain ⟨order, horder⟩ : ∃ order, (if xs.length = ys.length then
      strCompare (digitChars xs) (digitChars ys) else some 0) = some order := by
    by_cases hlen : xs.length = ys.length
    · obtain ⟨order, hcmp, -⟩ := strCompare_digitChars hxs hys hlen
      exact ⟨order, by rw [if_pos hlen, hcmp]⟩
    · exact ⟨0, if_neg hlen⟩
  obtain ⟨c, hc, hc0⟩ := head_operand signsym signA hxs hx
  obtain ⟨e, he, he0⟩ := head_operand signsym signB hys hy
  unfold chrMul
  rw [hc, he]
  dsimp only
  rw [if_neg (not_or.mpr ⟨hc0, he0⟩), takeSign_operand hsignA hxs hx, takeSign_operand hsignB hys hy]
  dsimp only
  rw [countDigits_digitChars hxs, countDigits_digitChars hys]
  dsimp only
  rw [if_neg (by omega), horder]
  dsimp only
  split
  next =>
    obtain ⟨hfits, hlong⟩ := mulMagnitudes_spec signsym limit (xor signA signB) hys hxs hy
    rw [Nat.add_comm ys.length] at hfits hlong
    refine ⟨fun hfit _ hylt => ?_, hlong⟩
    rw [Nat.mul_comm]
    exact hfits hfit hylt
  next =>
    obtain ⟨hfits, hlong⟩ := mulMagnitudes_spec signsym limit (xor signA signB) hxs hys hx
    exact ⟨fun hfit hxlt _ => hfits hfit hxlt, hlong⟩

theorem mulSize_eq (xs ys : List Nat) :
    xs.length + ys.length + 1 + true.toNat = mulSize xs ys := rfl

/-- The product of canonical operands is exact where the buffer for it fits in
`malc_limit`, and its carries stay among the digits, behind the sign; it is the null
pointer where the buffer does not fit. -/
theorem chrMul_exact (limit : Nat) (x y : Signed) :
    (mulSize x.digits y.digits ≤ min limit (2 ^ 31) →
      ∃ r z low, chrMul true limit x.chars y.chars = some (r, low) ∧ r.Is z ∧
        z.toInt = x.toInt * y.toInt ∧ 1 ≤ low) ∧
    (limit < mulSize x.digits y.digits → chrMul true limit x.chars y.chars = some (.null, 0)) := by
  obtain ⟨hfits, hlong⟩ := chrMul_digits true limit x.minus y.minus (fun _ => rfl) (fun _ => rfl)
    x.decimal y.decimal x.canonical.1 y.canonical.1
  refine ⟨fun hfit => ?_, hlong⟩
  obtain ⟨hlimit, hint⟩ := Nat.le_min.mp hfit
  have hxlt : x.digits.length < 2 ^ 31 := by
    unfold mulSize at hint
    omega
  have hylt : y.digits.length < 2 ^ 31 := by
    unfold mulSize at hint
    omega
  obtain ⟨r, z, low, hr, hz, hminus, hval, hlow⟩ := hfits hlimit hxlt hylt
  refine ⟨r, z, low, hr, hz, ?_, hlow⟩
  unfold Signed.toInt
  rw [hminus, hval]
  have hmag : ((value 10 x.digits * value 10 y.digits : Nat) : Int) =
      (x.magnitude : Int) * y.magnitude := Nat.cast_mul _ _
  rw [hmag]
  cases x.minus <;> cases y.minus <;> simp

/-- `1111 * 11`, with room and without. -/
theorem chrMul_exact_ones :
    (∃ r z low, chrMul true 0x1000 (ones 3).chars (ones 1).chars = some (r, low) ∧ r.Is z ∧
      z.toInt = (ones 3).toInt * (ones 1).toInt ∧ 1 ≤ low) ∧
    chrMul true 7 (ones 3).chars (ones 1).chars = some (.null, 0) := by
  have h := chrMul_exact 0x1000 (ones 3) (ones 1)
  have h' := chrMul_exact 7 (ones 3) (ones 1)
  exact ⟨h.1 (by decide), h'.2 (by decide)⟩

/-- With the default `malc_limit`, the product of two numbers of 2048 digits is not
returned. -/
theorem chrMul_long_null :
    ¬∀ x y : Signed, ∃ r z low, chrMul true 0x1000 x.chars y.chars = some (r, low) ∧ r.Is z ∧
      z.toInt = x.toInt * y.toInt := by
  intro h
  obtain ⟨r, z, low, hr, ⟨rest, rfl⟩, -⟩ := h (ones 2047) (ones 2047)
  have hsize : 0x1000 < mulSize (ones 2047).digits (ones 2047).digits := by
    unfold mulSize ones
    dsimp only
    rw [length_cons, length_replicate]
    omega
  have hnull := (chrMul_digits true 0x1000 (ones 2047).minus (ones 2047).minus (fun _ => rfl)
    (fun _ => rfl) (ones 2047).decimal (ones 2047).decimal (ones 2047).canonical.1
    (ones 2047).canonical.1).2 (by rw [mulSize_eq]; exact hsize)
  rw [← operand_true, Signed.operand, hnull] at hr
  cases hr

end Unisym.Text
