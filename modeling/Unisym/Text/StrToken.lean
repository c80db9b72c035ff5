/-
# `StrToken` — the number readers of `atoins.c`

`StrTokenLong`, `StrTokenULong`, `StrTokenLLong` and `StrTokenULLong` are one reader with their limits.  A string is
its bytes; behind them a terminator is read.  Pointers are distances from the string.  `*endptr` is nothing if it is
not written.

`strtol` is what they are for.  They give it on few strings (`strToken_iff`): the digit 0 has the table's entry for
no digit and ends a number, the sign is looked for at the string and not behind the blanks, is not skipped, and is the
factor 0 of a number without a minus; and a number that does not fit leaves `*endptr` as it is.
-/
import Mathlib.Algebra.Group.Int.Defs
import Mathlib.Algebra.Order.Group.Nat
import Mathlib.Data.List.Infix
import Mathlib.Data.List.TakeWhile

namespace Unisym.StrToken

open List

abbrev Text := List UInt8

/-- `ascii_isalnum` -/
def isAlnum (c : UInt8) : Bool := 97 ≤ c && c ≤ 122 || 65 ≤ c && c ≤ 90 || 48 ≤ c && c ≤ 57

/-- `_tab_alnum_digit` -/
def alnumDigit (c : UInt8) : Nat :=
  if 48 ≤ c ∧ c ≤ 57 then c.toNat - 48
  else if 65 ≤ c ∧ c ≤ 90 then c.toNat - 65 + 10
  else if 97 ≤ c ∧ c ≤ 122 then c.toNat - 97 + 10
  else 0

/-- `ascii_toupper` -/
def toUpper (c : UInt8) : UInt8 := if 97 ≤ c ∧ c ≤ 122 then c - 32 else c

def isBlank (c : UInt8) : Bool := c == 32 || c == 9

/-- `setsym`: `sign`, and how far it goes. -/
def setsym (inp : Text) : Int × Nat :=
  if inp.head? = some 45 then (1, 1) else if inp.head? = some 43 then (0, 1) else (0, 0)

/-- The loop over the digits: the result, and how far it goes; nothing is a number above the limit. -/
def readDigits (base limit : Nat) : (ptr : Text) → (result n : Nat) → Option (Nat × Nat)
  | [], result, n => some (result, n)
  | c :: ptr, result, n =>
      if isAlnum c then
        let digit := alnumDigit c
        if digit = 0 ∨ digit ≥ base then some (result, n)
        else if result > (limit - digit) / base then none
        else readDigits base limit ptr (result * base + digit) (n + 1)
      else some (result, n)

/-- The base, and the length of its prefix, where the argument is 0. -/
def detect (ptr : Text) : Nat × Nat :=
  if ptr.head? = some 48 then if toUpper ((ptr.drop 1).headD 0) = 88 then (16, 2) else (8, 0) else (10, 0)

/-- What is returned, and `*endptr`. -/
abbrev Token := Int × Option Nat

/-- A reader with these limits; `setsym` is called by the signed ones. -/
def strToken (signed : Bool) (max : Nat) (min : Int) (inp : Text) (base : Int) : Token :=
  let blanks := (inp.takeWhile isBlank).length
  let ptr := inp.drop blanks
  let (sign, skipped) := if signed then setsym inp else (1, 0)
  if base ≠ 0 ∧ (base < 2 ∨ base > 36) then (0, some skipped)
  else
    let (base, fix) := if base = 0 then detect ptr else (base.toNat, 0)
    match readDigits base max (ptr.drop fix) 0 (blanks + fix) with
    | none => (if sign ≥ 0 then max else min, none)
    | some (result, n) => (sign * result, some n)

section Readers

variable (bits : Nat) (inp : Text) (base : Int)

/-- `StrTokenLong`; `long` has `bits` bits. -/
def strTokenLong : Token := strToken true (2 ^ (bits - 1) - 1) (-2 ^ (bits - 1)) inp base

def strTokenULong : Token := strToken false (2 ^ bits - 1) 0 inp base

/-- `StrTokenLLong`; a number that is too small would be `LONG_MIN`. -/
def strTokenLLong : Token := strToken true (2 ^ 63 - 1) (-2 ^ (bits - 1)) inp base

def strTokenULLong : Token := strToken false (2 ^ 64 - 1) 0 inp base

end Readers

/-! ## What the readers are for -/

/-- A digit of the base, a letter in either case. -/
def isDigitIn (base : Nat) (c : UInt8) : Bool := isAlnum c && decide (alnumDigit c < base)

def valueOf (base value : Nat) (digits : Text) : Nat := digits.foldl (fun value c => value * base + alnumDigit c) value

/-- A string without its blanks, and without its sign where there may be one. -/
def unsignedText (signed : Bool) (inp : Text) : Bool × Text :=
  let text := inp.dropWhile isBlank
  if signed ∧ (text.head? = some 45 ∨ text.head? = some 43) then (text.head? = some 45, text.drop 1) else (false, text)

/-- The base that the prefix gives: `0x` is one in front of a hexadecimal digit. -/
def radix (base : Nat) (text : Text) : Nat × Nat :=
  if base = 0 then
    if text.head? = some 48 ∧ toUpper ((text.drop 1).headD 0) = 88 ∧ ((text.drop 2).head?.any (isDigitIn 16)) then (16, 2)
    else if text.head? = some 48 then (8, 0)
    else (10, 0)
  else (base, 0)

/-- The longest run of digits. -/
def digitsOf (signed : Bool) (base : Nat) (inp : Text) : Text :=
  let text := (unsignedText signed inp).2
  (text.drop (radix base text).2).takeWhile (isDigitIn (radix base text).1)

/-- The number that the digits denote. -/
def numberOf (signed : Bool) (base : Nat) (inp : Text) : Nat :=
  valueOf (radix base (unsignedText signed inp).2).1 0 (digitsOf signed base inp)

/-- The end of the number; a string without a digit has none, and is left as it is. -/
def endOf (signed : Bool) (base : Nat) (inp : Text) : Nat :=
  let text := (unsignedText signed inp).2
  if digitsOf signed base inp = [] then 0
  else inp.length - text.length + (radix base text).2 + (digitsOf signed base inp).length

def strtol (signed : Bool) (max : Nat) (min : Int) (base : Nat) (inp : Text) : Token :=
  let value : Int := if (unsignedText signed inp).1 then -numberOf signed base inp else numberOf signed base inp
  (if value > max then max else if value < min then min else value, some (endOf signed base inp))

/-! ## The digits that are read -/

theorem alnumDigit_zero {c : UInt8} (h : isAlnum c = true) : alnumDigit c = 0 ↔ c = 48 := by
  constructor
  · intro hzero
    simp only [isAlnum, Bool.or_eq_true, Bool.and_eq_true, decide_eq_true_eq, UInt8.le_iff_toNat_le] at h
    simp only [alnumDigit, UInt8.le_iff_toNat_le] at hzero
    apply UInt8.toNat.inj
    change c.toNat = 48
    simp only [UInt8.reduceToNat] at h hzero
    split_ifs at hzero <;> omega
  · rintro rfl
    rfl

/-- The digits in front of the first 0. -/
def beforeZero (digits : Text) : Text := digits.takeWhile (· != 48)

theorem valueOf_ge {base : Nat} (hbase : 0 < base) (digits : Text) (value : Nat) : value ≤ valueOf base value digits := by
  induction digits generalizing value with
  | nil => exact le_refl _
  | cons c digits ih =>
    have hstep : value ≤ value * base + alnumDigit c :=
      (Nat.le_mul_of_pos_right value hbase).trans (Nat.le_add_right _ _)
    exact hstep.trans (ih _)

/-- The loop stops at a 0, and at a number above the limit. -/
theorem readDigits_eq {base limit : Nat} (hbase : 0 < base) (hlimit : base ≤ limit) (ptr : Text) {result : Nat}
    (hresult : result ≤ limit) (n : Nat) :
    readDigits base limit ptr result n =
      if valueOf base result (beforeZero (ptr.takeWhile (isDigitIn base))) ≤ limit then
        some (valueOf base result (beforeZero (ptr.takeWhile (isDigitIn base))),
          n + (beforeZero (ptr.takeWhile (isDigitIn base))).length)
      else none := by
  induction ptr generalizing result n with
  | nil => exact (if_pos hresult).symm
  | cons c ptr ih =>
    rw [readDigits]
    by_cases halnum : isAlnum c = true
    · rw [if_pos halnum]
      by_cases hzero : alnumDigit c = 0
      · have hdigit : isDigitIn base c = true := by
          rw [isDigitIn, halnum, Bool.true_and, hzero]
          exact decide_eq_true hbase
        have hc : ¬(c != 48) = true := by rw [(alnumDigit_zero halnum).mp hzero]; decide
        rw [if_pos (Or.inl hzero), takeWhile_cons_of_pos hdigit, beforeZero,
          takeWhile_cons_of_neg (p := (· != 48)) hc]
        exact (if_pos hresult).symm
      by_cases hbig : alnumDigit c ≥ base
      · have hdigit : ¬ isDigitIn base c = true := by
          rw [isDigitIn, halnum, Bool.true_and, decide_eq_true_eq]
          exact Nat.not_lt.mpr hbig
        rw [if_pos (Or.inr hbig), takeWhile_cons_of_neg hdigit]
        exact (if_pos hresult).symm
      · have hdigit : isDigitIn base c = true := by
          rw [isDigitIn, halnum, Bool.true_and]
          exact decide_eq_true (Nat.lt_of_not_le hbig)
        have hc : (c != 48) = true := bne_iff_ne.mpr fun hc => hzero ((alnumDigit_zero halnum).mpr hc)
        have hover : result > (limit - alnumDigit c) / base ↔ limit < result * base + alnumDigit c := by
          rw [gt_iff_lt, Nat.div_lt_iff_lt_mul hbase]
          omega
        rw [if_neg (not_or.mpr ⟨hzero, hbig⟩), takeWhile_cons_of_pos hdigit, beforeZero,
          takeWhile_cons_of_pos (p := (· != 48)) hc, length_cons]
        by_cases hfits : result > (limit - alnumDigit c) / base
        · have hge := valueOf_ge hbase (beforeZero (ptr.takeWhile (isDigitIn base))) (result * base + alnumDigit c)
          exact (if_pos hfits).trans (if_neg (Nat.not_le.mpr ((hover.mp hfits).trans_le hge))).symm
        · refine (if_neg hfits).trans ((ih (Nat.le_of_not_lt (hover.not.mp hfits)) (n + 1)).trans ?_)
          rw [Nat.add_assoc, Nat.add_comm 1]
          rfl
    · have hdigit : ¬ isDigitIn base c = true := by
        rw [isDigitIn, Bool.and_eq_true]
        exact fun hboth => halnum hboth.1
      rw [if_neg halnum, takeWhile_cons_of_neg hdigit]
      exact (if_pos hresult).symm

theorem length_beforeZero (digits : Text) : (beforeZero digits).length = digits.length ↔ 48 ∉ digits := by
  constructor
  · intro hlength hmem
    rw [← (List.takeWhile_prefix _).eq_of_length hlength] at hmem
    exact absurd (mem_takeWhile_imp hmem) (by decide)
  · intro hnone
    have hall : ∀ c ∈ digits, (c != 48) = true := fun c hc => bne_iff_ne.mpr fun h => hnone (h ▸ hc)
    rw [beforeZero, takeWhile_eq_self_iff.mpr hall]

/-! ## Where the readers are `strtol` -/

/-- The strings that a reader reads: those without a number and without blanks in front; and, if it is not signed, those
with digits but no 0 among them, whose number fits. -/
def Reads (signed : Bool) (max base : Nat) (inp : Text) : Prop :=
  (digitsOf signed base inp = [] ∧ (inp.head?.any isBlank) = false) ∨
    (signed = false ∧ digitsOf signed base inp ≠ [] ∧ 48 ∉ digitsOf signed base inp ∧ numberOf signed base inp ≤ max)

section Reading

variable {signed : Bool} {max base : Nat} {min low : Int} {inp : Text}

theorem drop_blanks (inp : Text) : inp.drop (inp.takeWhile isBlank).length = inp.dropWhile isBlank :=
  (congrArg (List.drop _) takeWhile_append_dropWhile.symm).trans drop_left

theorem blanks_length (inp : Text) :
    (inp.takeWhile isBlank).length + (inp.dropWhile isBlank).length = inp.length := by
  rw [← length_append, takeWhile_append_dropWhile]

theorem blanks_zero (inp : Text) : (inp.takeWhile isBlank).length = 0 ↔ (inp.head?.any isBlank) = false := by
  match inp with
  | [] => exact iff_of_true rfl rfl
  | c :: inp =>
    cases hc : isBlank c with
    | true =>
      rw [takeWhile_cons_of_pos hc]
      exact iff_of_false (Nat.succ_ne_zero _) fun h => Bool.true_eq_false.mp (hc.symm.trans h)
    | false =>
      rw [takeWhile_cons_of_neg (by rw [hc]; exact Bool.false_ne_true)]
      exact iff_of_true rfl hc

variable {b : Int} {text : Text} {c : UInt8}

/-- The reader on the text behind the blanks; `found` is the base and the length of its prefix. -/
theorem strToken_eq (hb : b = 0 ∨ 2 ≤ b ∧ b ≤ 36) (hmax : 36 ≤ max) {digits : Text} {found : Nat × Nat}
    (htext : inp.dropWhile isBlank = text) (hfound : (if b = 0 then detect text else (b.toNat, 0)) = found)
    (hdigits : (text.drop found.2).takeWhile (isDigitIn found.1) = digits) :
    strToken signed max min inp b =
      if valueOf found.1 0 (beforeZero digits) ≤ max then
        ((if signed then setsym inp else (1, 0)).1 * valueOf found.1 0 (beforeZero digits),
          some ((inp.takeWhile isBlank).length + found.2 + (beforeZero digits).length))
      else (if (if signed then setsym inp else (1, 0)).1 ≥ 0 then max else min, none) := by
  have hrange : 0 < found.1 ∧ found.1 ≤ max := by
    rw [← hfound]
    split
    · rw [detect]
      split
      · split <;> exact ⟨Nat.succ_pos _, by omega⟩
      · exact ⟨Nat.succ_pos _, by omega⟩
    · exact ⟨by omega, by omega⟩
  rw [strToken]
  simp only [drop_blanks, htext]
  rw [if_neg (by omega), hfound]
  rw [readDigits_eq hrange.1 hrange.2 _ (Nat.zero_le max), hdigits]
  by_cases hfits : valueOf found.1 0 (beforeZero digits) ≤ max
  · rw [if_pos hfits, if_pos hfits]
  · rw [if_neg hfits, if_neg hfits]

theorem digits_signed {radix : Nat} (hc : c = 45 ∨ c = 43) (text : Text) :
    ((c :: text).takeWhile (isDigitIn radix)) = [] := by
  rcases hc with rfl | rfl <;> exact takeWhile_cons_of_neg (by rw [isDigitIn]; exact Bool.false_ne_true)

theorem valueOf_pos {base : Nat} (hbase : 0 < base) {digits : Text} (hne : digits ≠ []) (hzero : 48 ∉ digits)
    (hdigits : ∀ c ∈ digits, isAlnum c = true) : 0 < valueOf base 0 digits := by
  match digits with
  | [] => exact absurd rfl hne
  | c :: digits =>
    have hc : alnumDigit c ≠ 0 := fun h => hzero (by
      rw [(alnumDigit_zero (hdigits c mem_cons_self)).mp h]
      exact mem_cons_self)
    have hge := valueOf_ge hbase digits (0 * base + alnumDigit c)
    exact Nat.lt_of_lt_of_le (by omega) hge

theorem strtol_none (hmin : min ≤ 0) (h : digitsOf signed base inp = []) :
    strtol signed max min base inp = (0, some 0) := by
  have hnumber : numberOf signed base inp = 0 := by rw [numberOf, h]; rfl
  rw [strtol, hnumber, endOf, if_pos h]
  have hzero : (if (unsignedText signed inp).1 = true then -((0 : Nat) : Int) else ((0 : Nat) : Int)) = 0 := by
    split <;> rfl
  rw [hzero]
  simp only [gt_iff_lt]
  rw [if_neg (by omega), if_neg (by omega)]

/-- A reader is `strtol` where the text behind the blanks has a sign: only if no digit follows. -/
theorem strToken_signed (hb : b = 0 ∨ 2 ≤ b ∧ b ≤ 36) (hmax : 36 ≤ max) (hmin : min ≤ 0)
    (hc : c = 45 ∨ c = 43) (htext : inp.dropWhile isBlank = c :: text) :
    strToken true max low inp b = strtol true max min b.toNat inp ↔
      digitsOf true b.toNat inp = [] ∧ (inp.head?.any isBlank) = false := by
  have hfound : (if b = 0 then detect (c :: text) else (b.toNat, 0)) = ((if b = 0 then 10 else b.toNat), 0) := by
    have hhead : (c :: text).head? ≠ some 48 := by
      rcases hc with rfl | rfl <;> exact fun h => absurd (Option.some.inj h) (by decide)
    rw [detect, if_neg hhead]
    split <;> rfl
  have hread : strToken true max low inp b = ((setsym inp).1 * 0, some (inp.takeWhile isBlank).length) :=
    (strToken_eq hb hmax htext hfound (digits_signed hc text)).trans (if_pos (Nat.zero_le max))
  rw [hread, ← blanks_zero]
  have hrest : (unsignedText true inp).2 = text := by
    rw [unsignedText, htext]
    rcases hc with rfl | rfl <;> rfl
  constructor
  · intro heq
    have hend : (inp.takeWhile isBlank).length = endOf true b.toNat inp := by
      exact Option.some.inj (congrArg Prod.snd heq)
    rw [endOf] at hend
    by_cases hnone : digitsOf true b.toNat inp = []
    · rw [if_pos hnone] at hend
      exact ⟨hnone, hend⟩
    · have hlength := blanks_length inp
      rw [htext, length_cons] at hlength
      rw [if_neg hnone, hrest] at hend
      omega
  · rintro ⟨hnone, hzero⟩
    rw [strtol_none hmin hnone, hzero]
    exact congrArg (·, some 0) (Int.mul_zero _)

theorem isDigitIn_of_X (h : toUpper c = 88) : isDigitIn 8 c = false := by
  have hc : c.toNat = 88 ∨ c.toNat = 120 := by
    rw [toUpper] at h
    split at h
    · next hsmall =>
      have hle : (32 : UInt8) ≤ c := UInt8.le_iff_toNat_le.mpr ((by decide : 32 ≤ 97).trans (UInt8.le_iff_toNat_le.mp hsmall.1))
      have hnat := congrArg UInt8.toNat h
      rw [UInt8.toNat_sub_of_le _ _ hle] at hnat
      have h32 : (32 : UInt8).toNat = 32 := rfl
      have h88 : (88 : UInt8).toNat = 88 := rfl
      omega
    · exact Or.inl (congrArg UInt8.toNat h)
  have hcases : c = 88 ∨ c = 120 := hc.imp (fun h => UInt8.toNat.inj h) (fun h => UInt8.toNat.inj h)
  rcases hcases with rfl | rfl <;> rfl

theorem radix_prefix {base : Nat}
    (h : (text.drop (radix base text).2).takeWhile (isDigitIn (radix base text).1) = []) : (radix base text).2 = 0 := by
  rw [radix] at h ⊢
  split
  · next hbase =>
    rw [if_pos hbase] at h
    split
    · next hhex =>
      rw [if_pos hhex] at h
      match hdrop : text.drop 2 with
      | [] =>
        rw [hdrop] at hhex
        exact absurd hhex.2.2 Bool.false_ne_true
      | c :: rest =>
        rw [hdrop] at hhex h
        have hc : isDigitIn 16 c = true := hhex.2.2
        rw [takeWhile_cons_of_pos hc] at h
        exact absurd h (cons_ne_nil _ _)
    · split <;> rfl
  · rfl

/-- Where the prefix is read otherwise, it is `0x` without a digit: the number is 0, and the `x` behind it. -/
theorem detect_ne (hb : b = 0 ∨ 2 ≤ b ∧ b ≤ 36)
    (h : (if b = 0 then detect text else (b.toNat, 0)) ≠ radix b.toNat text) :
    (if b = 0 then detect text else (b.toNat, 0)) = (16, 2) ∧ (radix b.toNat text).2 = 0 ∧
      (text.drop (radix b.toNat text).2).takeWhile (isDigitIn (radix b.toNat text).1) = [48] := by
  rcases hb with rfl | hb
  · rw [if_pos rfl] at h ⊢
    rw [detect, radix, if_pos Int.toNat_zero] at h ⊢
    match text with
    | [] => exact absurd rfl h
    | c :: text =>
      by_cases hc : (c :: text).head? = some 48
      · by_cases hx : toUpper (((c :: text).drop 1).headD 0) = 88
        · by_cases hhex : (((c :: text).drop 2).head?.any (isDigitIn 16)) = true
          · rw [if_pos hc, if_pos hx, if_pos ⟨hc, hx, hhex⟩] at h
            exact absurd rfl h
          · rw [if_pos hc, if_pos hx, if_neg fun hall => hhex hall.2.2, if_pos hc]
            obtain rfl := Option.some.inj hc
            match text with
            | [] => exact absurd hx (by decide)
            | x :: text =>
              refine ⟨rfl, rfl, ?_⟩
              have hno : ¬ isDigitIn 8 x = true := by
                have hx' : toUpper x = 88 := hx
                rw [isDigitIn_of_X hx']
                exact Bool.false_ne_true
              rw [drop_zero, takeWhile_cons_of_pos (by decide), takeWhile_cons_of_neg hno]
        · rw [if_pos hc, if_neg hx, if_neg fun hall => hx hall.2.1, if_pos hc] at h
          exact absurd rfl h
      · rw [if_neg hc, if_neg fun hall => hc hall.1, if_neg hc] at h
        exact absurd rfl h
  · rw [if_neg (by omega), radix, if_neg (by omega)] at h
    exact absurd rfl h

/-- A reader is `strtol` where the text behind the blanks has no sign that it accepts. -/
theorem strToken_plain (hb : b = 0 ∨ 2 ≤ b ∧ b ≤ 36) (hmax : 36 ≤ max) (hmin : min ≤ 0)
    (hplain : ¬(signed = true ∧ ((inp.dropWhile isBlank).head? = some 45 ∨ (inp.dropWhile isBlank).head? = some 43))) :
    strToken signed max low inp b = strtol signed max min b.toNat inp ↔ Reads signed max b.toNat inp := by
  have htext : unsignedText signed inp = (false, inp.dropWhile isBlank) := if_neg hplain
  have hsign : signed = true → (setsym inp).1 = 0 := by
    intro hsigned
    rw [setsym]
    split
    · next hminus =>
      have hfirst : (inp.dropWhile isBlank).head? = some 45 := by
        match inp with
        | c :: inp =>
          obtain rfl := Option.some.inj hminus
          rfl
      exact absurd ⟨hsigned, Or.inl hfirst⟩ hplain
    · split <;> rfl
  obtain ⟨text, hrest⟩ : ∃ text, inp.dropWhile isBlank = text := ⟨_, rfl⟩
  obtain ⟨k, hk⟩ : ∃ k, (inp.takeWhile isBlank).length = k := ⟨_, rfl⟩
  have hlength := blanks_length inp
  rw [hrest] at htext
  rw [hrest, hk] at hlength
  obtain ⟨digits, hdigits⟩ : ∃ digits, digitsOf signed b.toNat inp = digits := ⟨_, rfl⟩
  have hend : endOf signed b.toNat inp = if digits = [] then 0 else k + (radix b.toNat text).2 + digits.length := by
    rw [endOf, hdigits, htext, ← hlength, Nat.add_sub_cancel_right]
  have hvalue : strtol signed max min b.toNat inp =
      ((if (numberOf signed b.toNat inp : Int) > max then (max : Int) else numberOf signed b.toNat inp),
        some (endOf signed b.toNat inp)) := by
    rw [strtol, htext]
    simp only [Bool.false_eq_true, if_false]
    rw [if_neg (show ¬ (numberOf signed b.toNat inp : Int) < min by omega)]
  rw [Reads, ← blanks_zero, hk, hdigits]
  by_cases hprefix : (if b = 0 then detect text else (b.toNat, 0)) = radix b.toNat text
  · have hrun : (text.drop (radix b.toNat text).2).takeWhile (isDigitIn (radix b.toNat text).1) = digits := by
      rw [← hdigits, digitsOf, htext]
    have hnumber : numberOf signed b.toNat inp = valueOf (radix b.toNat text).1 0 digits := by
      rw [numberOf, hdigits, htext]
    rw [strToken_eq hb hmax hrest hprefix hrun, hk, hvalue, hend, hnumber]
    by_cases hnone : digits = []
    · have hfix : (radix b.toNat text).2 = 0 := radix_prefix (hrun.trans hnone)
      have hzero : (0 : Int) = if ((0 : Nat) : Int) > max then (max : Int) else (0 : Nat) := by
        rw [if_neg (by omega)]
        rfl
      rw [hnone, hfix, show beforeZero [] = [] from rfl, show valueOf (radix b.toNat text).1 0 [] = 0 from rfl,
        if_pos (Nat.zero_le max), if_pos rfl]
      constructor
      · intro heq
        exact Or.inl ⟨rfl, Option.some.inj (congrArg Prod.snd heq)⟩
      · rintro (h | h)
        · rw [h.2]
          exact congrArg (·, some 0) ((Int.mul_zero _).trans hzero)
        · exact absurd rfl h.2.1
    have hpositive : 0 < (radix b.toNat text).1 := by
      rw [radix]
      split
      · split
        · exact Nat.succ_pos 15
        · split <;> exact Nat.succ_pos _
      · exact Nat.pos_of_ne_zero ‹_›
    have halnum : ∀ c ∈ digits, isAlnum c = true := fun c hc => by
      rw [← hrun] at hc
      have hdigit := mem_takeWhile_imp (p := isDigitIn (radix b.toNat text).1) hc
      rw [isDigitIn, Bool.and_eq_true] at hdigit
      exact hdigit.1
    rw [if_neg hnone]
    constructor
    · intro heq
      by_cases hfits : valueOf (radix b.toNat text).1 0 (beforeZero digits) ≤ max
      · rw [if_pos hfits] at heq
        have hplace := Option.some.inj (congrArg Prod.snd heq)
        have hzero : 48 ∉ digits := (length_beforeZero digits).mp (Nat.add_left_cancel hplace)
        have hwhole : beforeZero digits = digits :=
          (List.takeWhile_prefix _).eq_of_length ((length_beforeZero digits).mpr hzero)
        rw [hwhole] at heq hfits
        refine Or.inr ⟨?_, hnone, hzero, hfits⟩
        by_contra hsigned
        have hsigned : signed = true := Bool.eq_true_of_not_eq_false hsigned
        have hresult := congrArg Prod.fst heq
        have hvaluePos := valueOf_pos hpositive hnone hzero halnum
        rw [if_pos hsigned, hsign hsigned] at hresult
        simp only [gt_iff_lt, Int.zero_mul] at hresult
        rw [if_neg (by omega)] at hresult
        omega
      · rw [if_neg hfits] at heq
        exact absurd (congrArg Prod.snd heq).symm (Option.some_ne_none _)
    · rintro (h | ⟨hunsigned, -, hzero, hfits⟩)
      · exact absurd h.1 hnone
      · have hwhole : beforeZero digits = digits :=
          (List.takeWhile_prefix _).eq_of_length ((length_beforeZero digits).mpr hzero)
        rw [hwhole, if_pos hfits, hunsigned, if_neg (show ¬ (_ : Int) > max by omega)]
        exact congrArg (·, _) (Int.one_mul _)
  · obtain ⟨hcode, hfix, hzero⟩ := detect_ne hb hprefix
    have hone : digits = [48] := by rw [← hdigits, digitsOf, htext, hzero]
    refine iff_of_false (fun heq => ?_) ?_
    · rw [strToken_eq hb hmax hrest hcode rfl, hvalue, hend, hk, hfix, hone, if_neg (cons_ne_nil _ _)] at heq
      have hsnd := congrArg Prod.snd heq
      split at hsnd
      · have hplace := Option.some.inj hsnd
        simp only [length_singleton] at hplace
        omega
      · exact Option.some_ne_none _ hsnd.symm
    · rw [hone]
      rintro (h | h)
      · exact cons_ne_nil _ _ h.1
      · exact h.2.2.1 mem_cons_self

theorem strToken_iff (hb : b = 0 ∨ 2 ≤ b ∧ b ≤ 36) (hmax : 36 ≤ max) (hmin : min ≤ 0) :
    strToken signed max low inp b = strtol signed max min b.toNat inp ↔ Reads signed max b.toNat inp := by
  by_cases hplain : signed = true ∧
      ((inp.dropWhile isBlank).head? = some 45 ∨ (inp.dropWhile isBlank).head? = some 43)
  · obtain ⟨hsigned, hhead⟩ := hplain
    match htext : inp.dropWhile isBlank with
    | [] => rw [htext] at hhead; rcases hhead with h | h <;> exact absurd h.symm (Option.some_ne_none _)
    | c :: text =>
      rw [htext] at hhead
      have hc : c = 45 ∨ c = 43 := hhead.imp Option.some.inj Option.some.inj
      rw [Reads, hsigned, strToken_signed hb hmax hmin hc htext]
      exact ⟨Or.inl, fun h => h.resolve_right fun h => Bool.noConfusion h.1⟩
  · exact strToken_plain hb hmax hmin hplain

end Reading

/-- Each reader is `strtol`, with `*endptr`, exactly on the strings that it reads: a signed one on no number at all. -/
theorem readers_iff {bits : Nat} (hbits : 32 ≤ bits) (inp : Text) {base : Int} (hb : base = 0 ∨ 2 ≤ base ∧ base ≤ 36) :
    (strTokenLong bits inp base = strtol true (2 ^ (bits - 1) - 1) (-2 ^ (bits - 1)) base.toNat inp ↔
        digitsOf true base.toNat inp = [] ∧ (inp.head?.any isBlank) = false) ∧
      (strTokenLLong bits inp base = strtol true (2 ^ 63 - 1) (-2 ^ 63) base.toNat inp ↔
        digitsOf true base.toNat inp = [] ∧ (inp.head?.any isBlank) = false) ∧
      (strTokenULong bits inp base = strtol false (2 ^ bits - 1) 0 base.toNat inp ↔
        Reads false (2 ^ bits - 1) base.toNat inp) ∧
      (strTokenULLong inp base = strtol false (2 ^ 64 - 1) 0 base.toNat inp ↔
        Reads false (2 ^ 64 - 1) base.toNat inp) := by
  have hword {n : Nat} (hn : 31 ≤ n) : 36 ≤ 2 ^ n - 1 := by
    have hle : 2 ^ 31 ≤ 2 ^ n := Nat.pow_le_pow_right (Nat.succ_pos 1) hn
    omega
  have hsigned (max : Nat) : Reads true max base.toNat inp ↔
      digitsOf true base.toNat inp = [] ∧ (inp.head?.any isBlank) = false :=
    ⟨fun h => h.resolve_right fun h => Bool.noConfusion h.1, Or.inl⟩
  have hlow (n : Nat) : (-2 ^ n : Int) ≤ 0 := by
    have hpos : (0 : Int) ≤ 2 ^ n := Int.pow_nonneg (by decide)
    omega
  refine ⟨?_, ?_, ?_, ?_⟩
  · exact (strToken_iff hb (hword (by omega)) (hlow _)).trans (hsigned _)
  · exact (strToken_iff hb (hword (by omega)) (hlow 63)).trans (hsigned _)
  · exact strToken_iff hb (hword (by omega)) (le_refl 0)
  · exact strToken_iff hb (hword (by omega)) (le_refl 0)

/-- `"377"` to base 8 -/
theorem readers_377 :
    (strTokenLong 64 [51, 55, 55] 8 = strtol true (2 ^ (64 - 1) - 1) (-2 ^ (64 - 1)) 8 [51, 55, 55] ↔
        digitsOf true 8 [51, 55, 55] = [] ∧ (([51, 55, 55] : Text).head?.any isBlank) = false) ∧
      (strTokenLLong 64 [51, 55, 55] 8 = strtol true (2 ^ 63 - 1) (-2 ^ 63) 8 [51, 55, 55] ↔
        digitsOf true 8 [51, 55, 55] = [] ∧ (([51, 55, 55] : Text).head?.any isBlank) = false) ∧
      (strTokenULong 64 [51, 55, 55] 8 = strtol false (2 ^ 64 - 1) 0 8 [51, 55, 55] ↔
        Reads false (2 ^ 64 - 1) 8 [51, 55, 55]) ∧
      (strTokenULLong [51, 55, 55] 8 = strtol false (2 ^ 64 - 1) 0 8 [51, 55, 55] ↔
        Reads false (2 ^ 64 - 1) 8 [51, 55, 55]) :=
  readers_iff (by decide) [51, 55, 55] (show (8 : Int) = 0 ∨ 2 ≤ (8 : Int) ∧ (8 : Int) ≤ 36 from Or.inr (by decide))

/-- `"7"` is 0 for a signed reader, and `"10"` is 1 for the others. -/
theorem readers_differ :
    strTokenLong 64 [55] 10 ≠ strtol true (2 ^ 63 - 1) (-2 ^ 63) 10 [55] ∧
      strTokenLLong 64 [55] 10 ≠ strtol true (2 ^ 63 - 1) (-2 ^ 63) 10 [55] ∧
      strTokenULong 64 [49, 48] 10 ≠ strtol false (2 ^ 64 - 1) 0 10 [49, 48] ∧
      strTokenULLong [49, 48] 10 ≠ strtol false (2 ^ 64 - 1) 0 10 [49, 48] := by
  decide

end Unisym.StrToken
