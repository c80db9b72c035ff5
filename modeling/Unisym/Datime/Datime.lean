/-
# `Datime` — dates and day numbers

The macros of `datime.h`, `fromherp` and `weekday`.  The day 4 of `herspan` is the first of January 2014; the
formula for the years before is a mirrored one.

`calendar_agrees`: on the dates of the Gregorian calendar `herspan` counts the days, `fromherp` takes the count
back, and `weekday` is the day of the week.
-/
import Mathlib.Algebra.BigOperators.Group.Finset.Basic
import Mathlib.Tactic.IntervalCases
import Unisym.Library.Steps

namespace Unisym.Datime

/-! ## The code -/

/-- `year & 3` is the rest for negative years, too. -/
def isLeapYear (year : Int) : Bool := year % 4 == 0 && year.tmod 100 != 0 || year.tmod 400 == 0

def getHerDaySpanYear (y : Int) : Int :=
  if y > 2013 then
    4 + (y - 1900 - 114) * 365 + (y - 1900 - 117 + 4).tdiv 4 - (y - 1900 - 101).tdiv 100 + (y - 1900 - 101).tdiv 400
  else -((2014 - y) * 365 + (2016 - y).tdiv 4 - (2100 - y).tdiv 100 + (2400 - y).tdiv 400 - (31 - 27))

def getHerDaySpanMonth (y m : Int) : Int :=
  getHerDaySpanYear y + (m - 1) * 31 - (m - 1).tdiv 2 - (decide (m > 2)).toInt * (30 - 28 - (isLeapYear y).toInt) +
    (decide (m > 8) && m % 2 == 1).toInt

def herspan (y m d : Int) : Int := getHerDaySpanMonth y m + d - 1

def moondays (year month : Int) : Int :=
  30 + ((month % 2 == 1) ^^ decide (month > 7)).toInt - if month = 2 then 2 - (isLeapYear year).toInt else 0

/-- A result in a `stdint` of 32 bits, the smallest one; `none` if it does not fit -/
def stdint (n : Int) : Option Int := if -2 ^ 31 ≤ n ∧ n < 2 ^ 31 then some n else none

/-- A result in a `word` -/
def word (n : Int) : Option Nat := if 0 ≤ n ∧ n < 2 ^ 16 then some n.toNat else none

/-- The loop of `fromherp` back from 2014, and the results; no result after more rounds than `fuel`. -/
def backLoop : (fuel : Nat) → (tmpd tmpm tmpy : Int) → Option (Nat × Nat × Nat)
  | 0, _, _, _ => none
  | fuel + 1, tmpd, tmpm, tmpy =>
    if tmpd < 1 then do
      let tmpm ← stdint (tmpm - 1)
      let tmpy ← if tmpm < 1 then stdint (tmpy - 1) else some tmpy
      let tmpm := if tmpm < 1 then 12 else tmpm
      let tmpd ← stdint (tmpd + moondays tmpy tmpm)
      backLoop fuel tmpd tmpm tmpy
    else do some (← word tmpy, ← word tmpm, ← word tmpd)

/-- The loop over the years from 2014 on -/
def yearLoop : (fuel : Nat) → (spans : Int) → (year : Nat) → Option (Int × Nat)
  | 0, _, _ => none
  | fuel + 1, spans, year =>
    let days : Nat := if isLeapYear year then 366 else 365
    if spans ≥ days then do yearLoop fuel (← stdint (spans - days)) (← word (year + 1)) else some (spans, year)

/-- The loop over the months -/
def monthLoop (year : Nat) : (fuel : Nat) → (spans : Int) → (month : Nat) → Option (Int × Nat)
  | 0, _, _ => none
  | fuel + 1, spans, month =>
    if spans ≥ moondays year month then do
      monthLoop year fuel (← stdint (spans - moondays year month)) (← word (month + 1))
    else some (spans, month)

/-- `fromherp`: the year, the month and the day.  A round of a loop takes a day or more. -/
def fromherp (spans : Int) : Option (Nat × Nat × Nat) :=
  let fuel := spans.natAbs + 5
  if spans ≤ 3 then do backLoop fuel (← stdint (1 + (← stdint (spans - 4)))) 1 2014
  else do
    let (spans, year) ← yearLoop fuel (← stdint (spans - 4)) 2014
    let (spans, month) ← monthLoop year fuel spans 1
    some (year, month, ← word (1 + spans))

/-- An `int` as an `unsigned` -/
def unsigned (n : Int) : Nat := (n % 2 ^ 32).toNat

def weekday (year month day : Nat) : Nat :=
  let later := unsigned ((herspan year month day - 1).tmod 7)
  if year > 2013 then later
  else if year = 2013 ∧ month = 12 ∧ day = 28 then 6
  else if year = 2013 ∧ month = 12 ∧ day > 28 then later
  else unsigned (6 - (-herspan year month day).tmod 7)

/-! ## The calendar -/

/-- The leap years of the Gregorian calendar -/
def Leap (year : Nat) : Prop := 4 ∣ year ∧ (¬100 ∣ year ∨ 400 ∣ year)

instance : DecidablePred Leap := fun _ => inferInstanceAs (Decidable (_ ∧ _))

def monthDays (year : Nat) : Nat → Nat
  | 2 => if Leap year then 29 else 28
  | 4 | 6 | 9 | 11 => 30
  | _ => 31

structure Date where
  year : Nat
  month : Nat
  day : Nat
  year_pos : 1 ≤ year
  month_mem : 1 ≤ month ∧ month ≤ 12
  day_mem : 1 ≤ day ∧ day ≤ monthDays year month

/-- The days of month `k`, counted from January of the year 1 -/
def days (k : Nat) : Nat := monthDays (k / 12 + 1) (k % 12 + 1)

/-- The days before month `k` -/
def start (k : Nat) : Nat := (Finset.range k).sum days

theorem monthDays_pos (year month : Nat) : 1 ≤ monthDays year month := by
  unfold monthDays
  split <;> try split
  all_goals decide

theorem monthDays_le (year month : Nat) : monthDays year month ≤ 31 := by
  unfold monthDays
  split <;> try split
  all_goals decide

namespace Date

variable (a : Date)

/-- The month of the date, counted from January of the year 1 -/
def index : Nat := 12 * (a.year - 1) + (a.month - 1)

/-- The days up to the date, from the first of January of the year 1, a Monday, on -/
def number : Nat := start a.index + a.day

/-- The day of the week, from Sunday on -/
def dayOfWeek : Nat := a.number % 7

/-- The next day -/
def next : Date :=
  if h : a.day < monthDays a.year a.month then ⟨a.year, a.month, a.day + 1, a.year_pos, a.month_mem, by omega, h⟩
  else if hm : a.month < 12 then
    ⟨a.year, a.month + 1, 1, a.year_pos, ⟨by omega, hm⟩, Nat.le_refl 1, monthDays_pos _ _⟩
  else ⟨a.year + 1, 1, 1, by omega, by decide, Nat.le_refl 1, monthDays_pos _ _⟩

end Date

/-! ## The formulas count days -/

variable {n j year month : Nat}

theorem isLeapYear_eq (year : Nat) : isLeapYear year = decide (Leap year) := by
  rw [isLeapYear, Bool.eq_iff_iff, decide_eq_true_iff, Leap]
  simp only [Bool.or_eq_true, Bool.and_eq_true, beq_iff_eq, bne_iff_ne,
    Int.tmod_eq_emod_of_nonneg (Int.natCast_nonneg year)]
  omega

theorem moondays_eq (hm : 1 ≤ month ∧ month ≤ 12) : moondays year month = monthDays year month := by
  obtain ⟨hpos, hle⟩ := hm
  rw [moondays, isLeapYear_eq]
  by_cases hleap : Leap year <;> interval_cases month <;> simp [monthDays, hleap]

theorem days_index (hj : j < 12) : days (12 * n + j) = monthDays (n + 1) (j + 1) := by
  rw [days, Nat.mul_add_div (by decide), Nat.mul_add_mod, Nat.div_eq_of_lt hj, Nat.mod_eq_of_lt hj, Nat.add_zero]

theorem start_succ (k : Nat) : start (k + 1) = start k + days k := Finset.sum_range_succ _ _

/-- The days of the months before one -/
theorem start_month (hj : j < 12) : (start (12 * n + j) : Int) = start (12 * n) + (getHerDaySpanMonth (n + 1) (j + 1) -
    getHerDaySpanYear (n + 1)) := by
  have hleap := isLeapYear_eq (n + 1)
  rw [Nat.cast_succ] at hleap
  rw [getHerDaySpanMonth, hleap]
  induction j with
  | zero => simp
  | succ j ih =>
    rw [← Nat.add_assoc, start_succ, days_index (by omega), Nat.cast_add, ih (by omega)]
    have hlt : j < 11 := by omega
    clear ih
    by_cases h : Leap (n + 1) <;> interval_cases j <;> simp [monthDays, h] <;> omega

theorem start_succ_year (n : Nat) :
    start (12 * (n + 1)) = start (12 * n) + if isLeapYear (n + 1 : Nat) then 366 else 365 := by
  have hyear := start_month (n := n) (j := 11) (by decide)
  rw [getHerDaySpanMonth, ← Nat.cast_succ, isLeapYear_eq] at hyear
  rw [isLeapYear_eq, Nat.mul_succ, start_succ (12 * n + 11), days_index (by decide)]
  by_cases h : Leap (n + 1) <;> simp [monthDays, h] at hyear ⊢ <;> omega

theorem start_year (n : Nat) : start (12 * n) + n / 100 = 365 * n + n / 4 + n / 400 := by
  induction n with
  | zero => rfl
  | succ n ih =>
    rw [start_succ_year, isLeapYear_eq, Nat.succ_div, Nat.succ_div, Nat.succ_div]
    by_cases h4 : 4 ∣ n + 1 <;> by_cases h100 : 100 ∣ n + 1 <;> by_cases h400 : 400 ∣ n + 1 <;>
      simp [Leap, h4, h100, h400] <;> omega

theorem Date.herspan_eq (a : Date) : herspan a.year a.month a.day = a.number - 735230 := by
  obtain ⟨year, month, day, hyear, hmonth, hday⟩ := a
  obtain ⟨n, rfl⟩ := Nat.exists_eq_add_of_le' hyear
  obtain ⟨j, rfl⟩ := Nat.exists_eq_add_of_le' hmonth.1
  have hstart := start_month (n := n) (j := j) (by omega)
  have hyears := start_year n
  have hspan : getHerDaySpanYear (n + 1) = start (12 * n) - 735229 := by
    unfold getHerDaySpanYear
    split
    · rw [Int.tdiv_eq_ediv_of_nonneg (by omega), Int.tdiv_eq_ediv_of_nonneg (by omega),
        Int.tdiv_eq_ediv_of_nonneg (by omega)]
      omega
    · rw [Int.tdiv_eq_ediv_of_nonneg (by omega), Int.tdiv_eq_ediv_of_nonneg (by omega),
        Int.tdiv_eq_ediv_of_nonneg (by omega)]
      omega
  simp only [herspan, Date.number, Date.index, Nat.add_sub_cancel, Nat.cast_add, Nat.cast_one]
  omega

theorem Date.number_next (a : Date) : a.next.number = a.number + 1 := by
  obtain ⟨year, month, day, hyear, hmonth, hday⟩ := a
  obtain ⟨n, rfl⟩ := Nat.exists_eq_add_of_le' hyear
  obtain ⟨j, rfl⟩ := Nat.exists_eq_add_of_le' hmonth.1
  have hdays := days_index (n := n) (j := j) (by omega)
  have hstart := start_succ (12 * n + j)
  unfold Date.next
  split
  · rfl
  · split
    all_goals
      simp only [Date.number, Date.index, Nat.add_sub_cancel] at *
    · rw [Nat.add_assoc] at hstart
      omega
    · rw [show 12 * (n + 1) + (1 - 1) = 12 * n + j + 1 by omega]
      omega


/-! ## The loops take the count back -/

theorem start_le {k : Nat} : ∀ {l : Nat}, k ≤ l → start k + (l - k) ≤ start l
  | 0, h => by
    obtain rfl := Nat.le_zero.mp h
    exact Nat.le_refl _
  | l + 1, h => by
    rcases Nat.le_succ_iff.mp h with h | rfl
    · have hle := start_le h
      have hpos : 1 ≤ days l := monthDays_pos _ _
      rw [start_succ]
      omega
    · rw [Nat.sub_self, Nat.add_zero]

theorem stdint_eq {x : Int} (h : -2 ^ 31 ≤ x ∧ x < 2 ^ 31) : stdint x = some x := if_pos h

theorem word_eq (h : n < 2 ^ 16) : word n = some n := if_pos (by omega)

theorem start_2014 : start (12 * 2013) = 735233 := by
  have h := start_year 2013
  omega

/-- A round of the loop back goes to the month before. -/
theorem backLoop_step {k fuel : Nat} {tmpd : Int} (hk : k < 12 * 2013) (hlt : tmpd < 1) (hle : -2 ^ 30 ≤ tmpd) :
    backLoop (fuel + 1) tmpd ((k + 1) % 12 + 1 : Nat) ((k + 1) / 12 + 1 : Nat) =
      backLoop fuel (tmpd + days k) (k % 12 + 1 : Nat) (k / 12 + 1 : Nat) := by
  have hdays : days k ≤ 31 := monthDays_le _ _
  have hmoon : moondays (k / 12 + 1 : Nat) (k % 12 + 1 : Nat) = days k := moondays_eq (by omega)
  have hround (tmpy tmpm : Int) (hy : tmpy = (k / 12 + 1 : Nat)) (hm : tmpm = (k % 12 + 1 : Nat)) :
      (do backLoop fuel (← stdint (tmpd + moondays tmpy tmpm)) tmpm tmpy) =
        backLoop fuel (tmpd + days k) (k % 12 + 1 : Nat) (k / 12 + 1 : Nat) := by
    rw [hy, hm, hmoon, stdint_eq (by omega), some_bind]
  rw [backLoop, if_pos hlt, stdint_eq (by omega), some_bind]
  by_cases hjan : (k + 1) % 12 = 0
  · rw [if_pos (by omega), if_pos (by omega), stdint_eq (by omega), some_bind]
    exact hround _ _ (by omega) (by omega)
  · rw [if_neg (by omega), if_neg (by omega), some_bind]
    exact hround _ _ (by omega) (by omega)

/-- A loop takes off periods one after the other, of which `S` counts the days before. -/
structure TakesOff (loop : Nat → Int → Nat → Option (Int × Nat)) (S : Nat → Nat) (last : Nat) : Prop where
  step : ∀ {fuel u : Nat} {spans : Int}, u < last → (S (u + 1) : Int) ≤ spans + S u → spans < 2 ^ 30 →
    loop (fuel + 1) spans (u + 1) = loop fuel (spans + S u - S (u + 1)) (u + 2)
  stop : ∀ {fuel u : Nat} {spans : Int}, u ≤ last → spans + S u < S (u + 1) →
    loop (fuel + 1) spans (u + 1) = some (spans, u + 1)

theorem TakesOff.run {loop : Nat → Int → Nat → Option (Int × Nat)} {S : Nat → Nat} {last R t : Nat}
    (h : TakesOff loop S last) (hS : Monotone S) (ht : t ≤ last) (hle : S t ≤ R) (hlt : R < S (t + 1))
    (hR : R < 2 ^ 30) : ∀ {n fuel u : Nat}, n < fuel → u + n = t →
      loop fuel ((R : Int) - S u) (u + 1) = some ((R : Int) - S t, t + 1)
  | 0, fuel + 1, u, _, hn => by
    rw [Nat.add_zero] at hn
    rw [hn, h.stop ht (by omega)]
  | n + 1, fuel + 1, u, hfuel, hn => by
    have hnext : S (u + 1) ≤ S t := hS (by omega)
    rw [h.step (by omega) (by omega) (by omega), sub_add_cancel]
    exact h.run hS ht hle hlt hR (Nat.lt_of_succ_lt_succ hfuel) (by omega)

theorem yearLoop_takesOff : TakesOff yearLoop (fun y => start (12 * y)) 9999 := by
  constructor
  all_goals
    intro fuel y spans hy hspans
    have hlen := start_succ_year y
    rw [yearLoop]
    generalize (if isLeapYear (y + 1 : Nat) then 366 else 365) = D at hlen ⊢
  · intro hlt
    rw [if_pos (by omega), stdint_eq (by omega), some_bind, show ((y + 1 : Nat) : Int) + 1 = (y + 2 : Nat) from rfl,
      word_eq (by omega), some_bind]
    exact congrArg (yearLoop fuel · (y + 2)) (by omega)
  · exact if_neg (by omega)

theorem monthLoop_takesOff (y : Nat) : TakesOff (monthLoop (y + 1)) (fun m => start (12 * y + m)) 11 := by
  constructor
  all_goals
    intro fuel m spans hm hspans
    have hlen := start_succ (12 * y + m)
    rw [days_index (by omega)] at hlen
    rw [← Nat.add_assoc] at hspans
    rw [monthLoop, moondays_eq (by omega)]
  · intro hlt
    have hle := monthDays_le (y + 1) (m + 1)
    rw [if_pos (by omega), stdint_eq (by omega), some_bind, show ((m + 1 : Nat) : Int) + 1 = (m + 2 : Nat) from rfl,
      word_eq (by omega), some_bind]
    exact congrArg (monthLoop (y + 1) fuel · (m + 2)) (by rw [← Nat.add_assoc]; omega)
  · exact if_neg (by omega)

theorem start_monotone : Monotone start := fun _ _ h => (Nat.le_add_right _ _).trans (start_le h)

namespace Date

variable {a : Date}

theorem index_month (a : Date) : a.index % 12 + 1 = a.month ∧ a.index / 12 + 1 = a.year := by
  have := a.year_pos
  have := a.month_mem
  unfold index
  omega

theorem number_mem (a : Date) : start a.index < a.number ∧ a.number ≤ start (a.index + 1) := by
  have hday := a.day_mem
  obtain ⟨hmonth, hyear⟩ := a.index_month
  rw [number, start_succ, days, hmonth, hyear]
  omega

theorem number_le (a : Date) : a.number ≤ start (12 * a.year) := by
  refine a.number_mem.2.trans (start_monotone ?_)
  have := a.year_pos
  have := a.month_mem
  unfold index
  omega

theorem backLoop_spec (hyear : a.year ≤ 9999) : ∀ {n fuel : Nat}, n < fuel → a.index + n ≤ 12 * 2013 →
    backLoop fuel (a.number - start (a.index + n)) ((a.index + n) % 12 + 1 : Nat) ((a.index + n) / 12 + 1 : Nat) =
      some (a.year, a.month, a.day)
  | 0, fuel + 1, _, _ => by
    have hmonth := a.month_mem
    have hday := a.day_mem
    have hle := monthDays_le a.year a.month
    simp only [Nat.add_zero]
    rw [a.index_month.1, a.index_month.2, number, Nat.cast_add, add_sub_cancel_left, backLoop,
      if_neg (by omega), word_eq (by omega), word_eq (by omega), word_eq (by omega)]
    rfl
  | n + 1, fuel + 1, hfuel, hle => by
    have hnumber := a.number_mem.2
    have hstart := start_le (show a.index + 1 ≤ a.index + n + 1 by omega)
    have hend := start_le (show a.index + n + 1 ≤ 12 * 2013 from hle)
    rw [start_2014] at hend
    rw [← Nat.add_assoc, backLoop_step (k := a.index + n) hle (by omega) (by omega)]
    rw [show (a.number : Int) - start (a.index + n + 1) + days (a.index + n) = a.number - start (a.index + n) by
      rw [start_succ]; omega]
    exact backLoop_spec hyear (Nat.lt_of_succ_lt_succ hfuel) (Nat.le_of_succ_le hle)

/-- `fromherp` of the count of a date -/
theorem fromherp_spec (hyear : a.year ≤ 9999) :
    fromherp (herspan a.year a.month a.day) = some (a.year, a.month, a.day) := by
  obtain ⟨y, hy⟩ := Nat.exists_eq_add_of_le' a.year_pos
  obtain ⟨m, hm⟩ := Nat.exists_eq_add_of_le' a.month_mem.1
  have hmonth := a.month_mem.2
  have hindex : a.index = 12 * y + m := by rw [index, hy, hm]; rfl
  have hnumber := a.number_mem
  have hbound := a.number_le
  have hyears := start_year a.year
  rw [herspan_eq, fromherp]
  by_cases hback : (a.number : Int) - 735230 ≤ 3
  · have hle : a.index < 12 * 2013 := by
      by_contra hlate
      have hstart := start_le (Nat.le_of_not_lt hlate)
      rw [start_2014] at hstart
      omega
    have hend := start_le (show a.index + 1 ≤ 12 * 2013 from hle)
    rw [start_2014] at hend
    have hfuel : 12 * 2013 - a.index < ((a.number : Int) - 735230).natAbs + 5 := by omega
    have hloop := backLoop_spec hyear hfuel (by omega)
    rw [Nat.add_sub_cancel' hle.le, start_2014] at hloop
    rw [if_pos hback, stdint_eq (by omega), some_bind, stdint_eq (by omega), some_bind,
      show 1 + ((a.number : Int) - 735230 - 4) = a.number - 735233 by omega]
    exact hloop
  · have hle : 12 * 2013 ≤ a.index := by
      by_contra hearly
      have hend := start_le (show a.index + 1 ≤ 12 * 2013 by omega)
      rw [start_2014] at hend
      omega
    have hstart := start_le hle
    rw [start_2014] at hstart
    have hfirst : start (12 * y) ≤ start a.index := start_monotone (by omega)
    rw [hy] at hbound hyears
    have hyfuel : y - 2013 < ((a.number : Int) - 735230).natAbs + 5 := by omega
    have hmfuel : m < ((a.number : Int) - 735230).natAbs + 5 := by omega
    have hyloop := yearLoop_takesOff.run (R := a.number - 1) (t := y) (u := 2013) (fun _ _ h => start_monotone (by omega))
      (by omega) (by omega) (by omega) (by omega) hyfuel (by omega)
    have hmloop := (monthLoop_takesOff y).run (R := a.number - 1) (t := m) (u := 0)
      (fun _ _ h => start_monotone (by omega)) (by omega) (by rw [← hindex]; omega)
      (by rw [← Nat.add_assoc, ← hindex]; omega) (by omega) hmfuel (by omega)
    rw [start_2014] at hyloop
    rw [← hindex] at hmloop
    rw [if_neg hback, stdint_eq (by omega), some_bind,
      show (a.number : Int) - 735230 - 4 = (a.number - 1 : Nat) - (735233 : Nat) by omega]
    refine (congrArg (· >>= _) hyloop).trans ((congrArg (· >>= _) hmloop).trans ?_)
    have hday : 1 + (((a.number - 1 : Nat) : Int) - start a.index) = a.day := by rw [number] at hnumber ⊢; omega
    have hle := monthDays_le a.year a.month
    have hmem := a.day_mem
    show (word (1 + (((a.number - 1 : Nat) : Int) - start a.index)) >>= _) = _
    rw [hday, word_eq (by omega), some_bind, hy, hm]

/-- Before the last days of 2013 the count is not positive. -/
theorem weekday_spec (a : Date) : weekday a.year a.month a.day = a.dayOfWeek := by
  have hday := a.day_mem
  have hnum : a.number = start a.index + a.day := rfl
  have hidx : a.index = 12 * (a.year - 1) + (a.month - 1) := rfl
  have hlast : start (12 * 2012 + 11) = 735202 := by
    have hstart := start_succ (12 * 2012 + 11)
    rw [show days (12 * 2012 + 11) = 31 from rfl, show start (12 * 2012 + 11 + 1) = 735233 from start_2014] at hstart
    omega
  have hlater (hle : 735231 ≤ a.number) : unsigned ((herspan a.year a.month a.day - 1).tmod 7) = a.dayOfWeek := by
    rw [a.herspan_eq, unsigned, Int.tmod_eq_emod_of_nonneg (by omega), dayOfWeek]
    omega
  unfold weekday
  dsimp only
  split
  · refine hlater ?_
    have hstart := start_le (show 12 * 2013 ≤ a.index by omega)
    rw [start_2014] at hstart
    omega
  · split
    · rename_i h28
      rw [h28.1, h28.2.1] at hidx
      rw [dayOfWeek, hnum, hidx, hlast, h28.2.2]
    · split
      · rename_i h28
        refine hlater ?_
        rw [h28.1, h28.2.1] at hidx
        rw [hnum, hidx, hlast]
        omega
      · rename_i hyear h28 hlate
        have hle : a.number ≤ 735230 := by
          by_cases hdec : a.year = 2013 ∧ a.month = 12
          · rw [hdec.1, hdec.2] at hidx
            rw [hnum, hidx, hlast]
            omega
          · have hmonth := a.month_mem
            have hend := start_le (show a.index + 1 ≤ 12 * 2012 + 11 by omega)
            rw [hlast] at hend
            have hnumber := a.number_mem.2
            omega
        rw [a.herspan_eq, unsigned, Int.tmod_eq_emod_of_nonneg (by omega), dayOfWeek]
        omega

end Date

/-- The macros and the functions keep the Gregorian calendar. -/
theorem calendar_agrees (a : Date) (hyear : a.year ≤ 9999) :
    herspan a.next.year a.next.month a.next.day = herspan a.year a.month a.day + 1 ∧
      fromherp (herspan a.year a.month a.day) = some (a.year, a.month, a.day) ∧
      weekday a.year a.month a.day = a.dayOfWeek := by
  refine ⟨?_, Date.fromherp_spec hyear, a.weekday_spec⟩
  rw [a.next.herspan_eq, a.herspan_eq, a.number_next, Nat.cast_succ]
  omega

/-- The last day of a leap year, a Tuesday -/
theorem calendar_agrees_in_2024 : herspan 2025 1 1 = herspan 2024 12 31 + 1 ∧
    fromherp (herspan 2024 12 31) = some (2024, 12, 31) ∧
    weekday 2024 12 31 = (⟨2024, 12, 31, by decide, by decide, by decide⟩ : Date).dayOfWeek :=
  calendar_agrees ⟨2024, 12, 31, by decide, by decide, by decide⟩ (by decide)

end Unisym.Datime
