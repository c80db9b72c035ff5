/-
# `OutFormatInteger` — the integer conversions

A conversion is a percent sign, modifiers (`+`, the digits of a width, the letters of a size)
and the letter of the conversion.  Its text is the value's sign, then the digits in the base,
padded on the left to the width (`expected`).  `convert_written` says what the walk writes for
it, and `convert_iff` when that is the expected text: the width is at most 255 and the value
has the sign that its low `stduint` has.
-/
import Unisym.Library.Digits
import Unisym.Text.OutFormatSpec

namespace Unisym.Text

open List

variable {t : Target} {δ : Type}

/-! ## Conversions -/

/-- A modifier. -/
inductive Modifier where
  | plus | l | h
  | digit (d : Fin 10)
  deriving DecidableEq

def Modifier.char : Modifier → Char
  | plus => '+'
  | l => 'l'
  | h => 'h'
  | digit d => Nat.digitChar d

/-- The letter of an integer conversion. -/
inductive Conv where
  | d | u | x | X | b | o
  deriving DecidableEq

namespace Conv

def char : Conv → Char
  | d => 'd'
  | u => 'u'
  | x => 'x'
  | X => 'X'
  | b => 'b'
  | o => 'o'

def base : Conv → Nat
  | d => 10
  | u => 10
  | x => 16
  | X => 16
  | b => 2
  | o => 8

/-- The conversions that can show a sign. -/
def signed (c : Conv) : Bool := c = d ∨ c = o

end Conv

/-- The size of an argument. -/
inductive Size where
  | hh | h | none | l | ll
  deriving DecidableEq

namespace Size

def bits (t : Target) : Size → Nat
  | hh => 8
  | h => 16
  | none => 32
  | l => t.longBits
  | ll => 64

/-- `sizlevel` -/
def level : Size → BitVec 8
  | hh => -2
  | h => -1
  | none => 0
  | l => 1
  | ll => 2

/-- The part of an argument that a size takes. -/
def part : (z : Size) → Arg t δ → Option (BitVec (z.bits t))
  | hh, .int v => some (v.setWidth 8)
  | h, .int v => some (v.setWidth 16)
  | none, .int v => some v
  | l, .long v => some v
  | ll, .llong v => some v
  | _, _ => Option.none

end Size

/-- An integer conversion of a format. -/
structure IntSpec where
  mods : List Modifier
  conv : Conv
  deriving DecidableEq

namespace IntSpec

variable (sp : IntSpec)

def text : List Char := '%' :: (sp.mods.map Modifier.char ++ [sp.conv.char])

/-- The digits of the width, with a zero before them for the padding. -/
def digits : List Nat :=
  sp.mods.filterMap fun m => match m with
    | .digit d => some d
    | _ => none

/-- The width that is requested. -/
def width : Nat := Digits.value 10 sp.digits

def zeroPadded : Bool := sp.digits.head? = some 0

def plus : Bool := Modifier.plus ∈ sp.mods

/-- The letters of the size. -/
def letters : List Modifier := sp.mods.filter fun m => m = .l ∨ m = .h

def size : Option Size :=
  match sp.letters with
  | [.h, .h] => some .hh
  | [.h] => some .h
  | [] => some .none
  | [.l] => some .l
  | [.l, .l] => some .ll
  | _ => none

/-- The value of a part of an argument. -/
def value {n : Nat} (v : BitVec n) : Int := if sp.conv = .d then v.toInt else v.toNat

/-- A number in a base. -/
def numeral (lower : Bool) (base m : Nat) : List Char :=
  if m = 0 then ['0'] else (Nat.digits base m).reverse.map (alnumTab lower)

/-- The number without its sign. -/
def number (v : Int) : List Char := numeral (sp.conv = .x) sp.conv.base v.natAbs

/-- The text of a value. -/
def expected (v : Int) : List Char :=
  (if v < 0 then ['-'] else if sp.plus && sp.conv.signed then ['+'] else []) ++
    List.replicate (sp.width - (sp.number v).length) (if sp.zeroPadded then '0' else ' ') ++
    sp.number v

/-- The value has the sign of its low `stduint`, where it is taken for a signed one, and the
width is a byte. -/
structure Fits (t : Target) (v : Int) : Prop where
  width_le : sp.width ≤ 255
  sign : sp.conv.signed = true → ((BitVec.ofInt t.bits v).msb = true ↔ v < 0)

end IntSpec

/-! ## Digits -/

theorem digitLoop_eq {tab : Nat → Char} {base : Nat} (hbase : 1 < base) :
    ∀ (fuel val : Nat) (bufp : List Char), 0 < fuel → val < base ^ fuel →
      digitLoop tab base fuel val bufp =
        (if val = 0 then [tab 0] else (Nat.digits base val).reverse.map tab) ++ bufp
  | 0, _, _, hfuel, _ => absurd hfuel (Nat.lt_irrefl 0)
  | fuel + 1, val, bufp, _, hval => by
    have hpos : 0 < base := Nat.lt_trans Nat.zero_lt_one hbase
    unfold digitLoop
    by_cases hlast : val / base = 0
    · have hlt : val < base := (Nat.div_eq_zero_iff_lt hpos).mp hlast
      rw [if_pos hlast, Nat.mod_eq_of_lt hlt]
      by_cases hzero : val = 0
      · rw [if_pos hzero, hzero]
        rfl
      · rw [if_neg hzero, Nat.digits_of_lt base val hzero hlt]
        rfl
    · have hzero : val ≠ 0 := fun h => hlast (by rw [h, Nat.zero_div])
      have hdiv : val / base < base ^ fuel :=
        Nat.div_lt_of_lt_mul (by rwa [Nat.pow_succ, Nat.mul_comm] at hval)
      have hfuel : 0 < fuel := by
        refine Nat.pos_of_ne_zero fun h => hlast ?_
        rw [h, Nat.pow_zero] at hdiv
        exact Nat.lt_one_iff.mp hdiv
      rw [if_neg hlast, digitLoop_eq hbase fuel (val / base) _ hfuel hdiv, if_neg hlast,
        if_neg hzero, Nat.digits_def' hbase (Nat.pos_of_ne_zero hzero), reverse_cons,
        map_append, append_assoc]
      rfl

namespace IntSpec

variable {sp : IntSpec}

/-- Below `2 ^ 64` the characters of the digit loop are the numeral. -/
theorem digitLoop_numeral (lower : Bool) {base m : Nat} (hbase : 1 < base) (hm : m < 2 ^ 64) :
    digitLoop (alnumTab lower) base 64 m [] = numeral lower base m := by
  have hlt : m < base ^ 64 := Nat.lt_of_lt_of_le hm (Nat.pow_le_pow_left hbase 64)
  rw [digitLoop_eq hbase 64 m [] (by decide) hlt, append_nil]
  unfold numeral
  cases lower <;> rfl

theorem length_numeral_le (lower : Bool) {base m : Nat} (hbase : 1 < base) (hm : m < 2 ^ 64) :
    (numeral lower base m).length ≤ 64 := by
  unfold numeral
  split
  · decide
  · rename_i hzero
    rw [length_map, length_reverse, Nat.digits_length_le_iff hbase]
    exact Nat.lt_of_lt_of_le hm (Nat.pow_le_pow_left hbase 64)

end IntSpec

/-! ## Modifiers -/

/-- A modifier read. -/
def Flags.apply (f : Flags t) : Modifier → Flags t
  | .plus => { f with signed := true }
  | .l => if 0 ≤ f.sizlevel.toInt then { f with sizlevel := f.sizlevel + 1 } else f
  | .h => if f.sizlevel.toInt ≤ 0 then { f with sizlevel := f.sizlevel - 1 } else f
  | .digit d =>
      if d = 0 ∧ f.ent = 0 then { f with zeroPadding := true }
      else { f with ent := f.ent * 10 + BitVec.ofNat t.bits d }

theorem digit_char : ∀ d : Fin 10, Nat.digitChar d ≠ '+' ∧ Nat.digitChar d ≠ 'l' ∧
    Nat.digitChar d ≠ 'h' ∧ (Nat.digitChar d = '0' ↔ d = 0) ∧ '0' ≤ Nat.digitChar d ∧
    Nat.digitChar d ≤ '9' ∧ (Nat.digitChar d).toNat - '0'.toNat = d := by decide

theorem Flags.modify_char (f : Flags t) (m : Modifier) : f.modify m.char = some (f.apply m) := by
  cases m with
  | plus => rfl
  | l => rfl
  | h => rfl
  | digit d =>
    obtain ⟨hplus, hl, hh, hzero, hge, hle, hval⟩ := digit_char d
    unfold modify apply Modifier.char
    dsimp only
    rw [if_neg hplus, if_neg hl, if_neg hh]
    by_cases hpad : d = 0 ∧ f.ent = 0
    · rw [if_pos ⟨hzero.mpr hpad.1, hpad.2⟩, if_pos hpad]
    · rw [if_neg fun h => hpad ⟨hzero.mp h.1, h.2⟩, if_pos ⟨hge, hle⟩, hval, if_neg hpad]

theorem Flags.modify_conv (f : Flags t) (c : Conv) : f.modify c.char = none := by
  cases c <;> rfl

/-- The flags behind the modifiers. -/
def IntSpec.flags (t : Target) (sp : IntSpec) : Flags t := sp.mods.foldl Flags.apply .clear

namespace IntSpec

theorem flags_concat (ms : List Modifier) (m : Modifier) (c : Conv) :
    (IntSpec.mk (ms ++ [m]) c).flags t = ((IntSpec.mk ms c).flags t).apply m :=
  foldl_concat ..

theorem digits_concat (ms : List Modifier) (d : Fin 10) (c : Conv) :
    (IntSpec.mk (ms ++ [.digit d]) c).digits = (IntSpec.mk ms c).digits ++ [(d : Nat)] := by
  unfold digits
  rw [filterMap_append]
  rfl

theorem width_concat (ms : List Modifier) (d : Fin 10) (c : Conv) :
    (IntSpec.mk (ms ++ [.digit d]) c).width = (IntSpec.mk ms c).width * 10 + d := by
  unfold width
  rw [digits_concat, Digits.value_concat]

/-- A modifier that is no digit leaves the width as it is. -/
theorem digits_other (ms : List Modifier) {m : Modifier} (c : Conv) (hm : ∀ d, m ≠ .digit d) :
    (IntSpec.mk (ms ++ [m]) c).digits = (IntSpec.mk ms c).digits := by
  unfold digits
  rw [filterMap_append]
  cases m with
  | digit d => exact absurd rfl (hm d)
  | _ => exact append_nil _

theorem apply_other (f : Flags t) {m : Modifier} (hm : ∀ d, m ≠ .digit d) :
    (f.apply m).ent = f.ent ∧ (f.apply m).zeroPadding = f.zeroPadding := by
  cases m with
  | plus => exact ⟨rfl, rfl⟩
  | l => simp only [Flags.apply]; split <;> exact ⟨rfl, rfl⟩
  | h => simp only [Flags.apply]; split <;> exact ⟨rfl, rfl⟩
  | digit d => exact absurd rfl (hm d)

theorem flags_signed (sp : IntSpec) : (sp.flags t).signed = sp.plus := by
  obtain ⟨mods, conv⟩ := sp
  induction mods using List.reverseRecOn with
  | nil => rfl
  | append_singleton ms m ih =>
    have hplus : (IntSpec.mk (ms ++ [m]) conv).plus =
        ((IntSpec.mk ms conv).plus || decide (m = .plus)) := by
      unfold plus
      simp [eq_comm]
    rw [flags_concat, hplus, ← ih]
    cases m <;> simp [Flags.apply] <;> split <;> rfl

theorem flags_ent (sp : IntSpec) : (sp.flags t).ent = BitVec.ofNat t.bits sp.width := by
  obtain ⟨mods, conv⟩ := sp
  induction mods using List.reverseRecOn with
  | nil => rfl
  | append_singleton ms m ih =>
    rw [flags_concat]
    by_cases hm : ∃ d, m = .digit d
    · obtain ⟨d, rfl⟩ := hm
      rw [width_concat, BitVec.ofNat_add, BitVec.ofNat_mul, ← ih]
      simp only [Flags.apply]
      split
      · rename_i hpad
        rw [hpad.1, hpad.2]
        simp
      · rfl
    · have hm' : ∀ d, m ≠ .digit d := fun d hd => hm ⟨d, hd⟩
      rw [(apply_other _ hm').1, ih]
      unfold width
      rw [digits_other ms conv hm']

theorem flags_zeroPadding (sp : IntSpec) (h : sp.width ≤ 255) :
    (sp.flags t).zeroPadding = sp.zeroPadded := by
  obtain ⟨mods, conv⟩ := sp
  induction mods using List.reverseRecOn with
  | nil => rfl
  | append_singleton ms m ih =>
    rw [flags_concat]
    by_cases hm : ∃ d, m = .digit d
    · obtain ⟨d, rfl⟩ := hm
      rw [width_concat] at h
      have ih := ih (by omega)
      have hent : ((IntSpec.mk ms conv).flags t).ent = 0 → (IntSpec.mk ms conv).width = 0 := by
        intro hzero
        have hval := congrArg BitVec.toNat ((flags_ent (IntSpec.mk ms conv)).symm.trans hzero)
        have hpow : 2 ^ 32 ≤ 2 ^ t.bits := Nat.pow_le_pow_right (by decide) t.bits_ge
        rwa [BitVec.toNat_ofNat, BitVec.ofNat_eq_ofNat, BitVec.toNat_ofNat, Nat.zero_mod,
          Nat.mod_eq_of_lt (by omega)] at hval
      unfold zeroPadded at ih ⊢
      rw [digits_concat]
      simp only [Flags.apply]
      cases hds : (IntSpec.mk ms conv).digits with
      | nil =>
        have hwidth : (IntSpec.mk ms conv).width = 0 := by
          unfold width
          rw [hds]
          rfl
        have hent0 : ((IntSpec.mk ms conv).flags t).ent = 0 := by
          rw [flags_ent, hwidth]
          rfl
        rw [hds] at ih
        split
        · rename_i hpad
          simp [hpad.1]
        · rename_i hpad
          have hd : (d : Nat) ≠ 0 := fun hd => hpad ⟨Fin.ext hd, hent0⟩
          simpa [hd] using ih
      | cons e es =>
        rw [hds] at ih
        split
        · rename_i hpad
          have hwidth := hent hpad.2
          unfold width at hwidth
          rw [hds, Digits.value_cons] at hwidth
          have he : e = 0 := (Nat.mul_eq_zero.mp (Nat.eq_zero_of_add_eq_zero_right hwidth)).resolve_right
            (pow_ne_zero _ (by decide))
          simp [he]
        · exact ih
    · have hm' : ∀ d, m ≠ .digit d := fun d hd => hm ⟨d, hd⟩
      unfold width at h
      rw [digits_other ms conv hm'] at h
      rw [(apply_other _ hm').2, ih h]
      unfold zeroPadded
      rw [digits_other ms conv hm']

/-- The size behind a modifier. -/
def levelAfter (x : BitVec 8) : Modifier → BitVec 8
  | .l => if 0 ≤ x.toInt then x + 1 else x
  | .h => if x.toInt ≤ 0 then x - 1 else x
  | _ => x

theorem flags_sizlevel (sp : IntSpec) {z : Size} (h : sp.size = some z) :
    (sp.flags t).sizlevel = z.level := by
  have hstep : ∀ (f : Flags t) (m : Modifier), (f.apply m).sizlevel = levelAfter f.sizlevel m := by
    intro f m
    cases m <;> simp only [Flags.apply, levelAfter] <;> split <;> rfl
  have hfold : ∀ (ms : List Modifier) (f : Flags t), (ms.foldl Flags.apply f).sizlevel =
      (ms.filter fun m => m = .l ∨ m = .h).foldl levelAfter f.sizlevel := by
    intro ms
    induction ms with
    | nil => exact fun f => rfl
    | cons m ms ih =>
      intro f
      rw [foldl_cons, ih, hstep]
      cases m <;> rfl
  have hlevel := hfold sp.mods .clear
  change (sp.flags t).sizlevel = sp.letters.foldl levelAfter 0 at hlevel
  rw [hlevel]
  unfold size at h
  split at h <;> cases h <;> rename_i hletters <;> rw [hletters] <;> rfl

end IntSpec

/-! ## What a conversion writes -/

/-- A sign, and a numeral padded on the left. -/
def render (neg signShow : Bool) (least : Nat) (pad : Char) (num : List Char) : List Char :=
  (if neg then ['-'] else if signShow then ['+'] else []) ++
    List.replicate (least - num.length) pad ++ num

theorem written_replicate (n : Nat) (c : Char) :
    written (List.replicate n (.out [c])) = List.replicate n c := by
  induction n with
  | zero => rfl
  | succ n ih =>
    rw [replicate_succ, written_out, ih]
    rfl

/-- The number that `OutInteger` prints. -/
def magnitude (t : Target) (neg : Bool) (bytexpo : Nat) (val : BitVec 64) : Nat :=
  let val := if neg then ~~~val + 1 else val
  (if 2 ^ bytexpo < t.bits / 8 then val &&& BitVec.ofNat 64 (2 ^ 2 ^ (bytexpo + 3) - 1)
    else val).toNat

theorem outInteger_written (val : BitVec 64) (signShow signHave : Bool) (least : BitVec 8)
    (zero : Bool) (bytexpo : Nat) {base : Int} (hbase : 2 ≤ base ∨ base = -16) :
    written (outInteger t val base signShow signHave least zero bytexpo).2 =
      render (signHave && (val.setWidth t.bits).msb) signShow least.toNat (if zero then '0' else ' ')
        (IntSpec.numeral (base = -16) base.natAbs
          (magnitude t (signHave && (val.setWidth t.bits).msb) bytexpo val)) := by
  have hbase' : 1 < base.natAbs := by omega
  unfold outInteger
  rw [if_neg (not_not_intro hbase)]
  dsimp only
  rw [IntSpec.digitLoop_numeral (base = -16) hbase' (BitVec.isLt _), written_append, written_append,
    written_replicate]
  unfold render magnitude
  generalize (signHave && (val.setWidth t.bits).msb) = neg
  cases neg <;> cases signShow <;> simp

/-- The sign that is read of a part of an argument. -/
def IntSpec.readsMinus (t : Target) (sp : IntSpec) (v : Int) : Bool :=
  sp.conv.signed && (BitVec.ofInt t.bits v).msb

theorem integerCalls_written (sp : IntSpec) (raw : BitVec 64) (f : Flags t) (bytexpo : Nat) :
    written (integerCalls sp.conv.char raw f bytexpo) =
      render (sp.conv.signed && (raw.setWidth t.bits).msb) (f.signed && sp.conv.signed)
        (f.ent.setWidth 8).toNat (if f.zeroPadding then '0' else ' ')
        (IntSpec.numeral (sp.conv = .x) sp.conv.base
          (magnitude t (sp.conv.signed && (raw.setWidth t.bits).msb) bytexpo raw)) := by
  obtain ⟨mods, conv⟩ := sp
  cases conv with
  | d =>
    refine (outInteger_written raw f.signed true _ _ bytexpo (by decide)).trans ?_
    simp [Conv.signed]
    rfl
  | o =>
    refine (outInteger_written raw f.signed true _ _ bytexpo (by decide)).trans ?_
    simp [Conv.signed]
    rfl
  | b =>
    refine (outInteger_written raw false false _ _ bytexpo (by decide)).trans ?_
    simp [Conv.signed]
    rfl
  | u =>
    refine (outInteger_written raw false false _ _ bytexpo (by decide)).trans ?_
    simp [Conv.signed]
    rfl
  | x =>
    refine (outInteger_written raw false false _ _ bytexpo (by decide)).trans ?_
    simp [Conv.signed]
    rfl
  | X =>
    refine (outInteger_written raw false false _ _ bytexpo (by decide)).trans ?_
    simp [Conv.signed]
    rfl

/-- The bytes of a size. -/
def Size.bytes (t : Target) : Size → Nat
  | hh => 1
  | h => 2
  | none => 4
  | l => t.longBits / 8
  | ll => 8

/-- `bytexpo` -/
def Size.expo (t : Target) (z : Size) : Nat := Nat.log2 (z.bytes t)

theorem Size.bits_eq (t : Target) (z : Size) :
    2 ^ (z.expo t + 3) = z.bits t ∧ z.bits t ≤ 64 ∧ 0 < z.bits t ∧ 2 ^ z.expo t * 8 = z.bits t := by
  have hpow : ∀ n ∈ [8, 16, 32, 64], 2 ^ (Nat.log2 (n / 8) + 3) = n ∧ n ≤ 64 ∧ 0 < n ∧
      2 ^ Nat.log2 (n / 8) * 8 = n := by decide
  cases z with
  | hh => exact hpow 8 (by decide)
  | h => exact hpow 16 (by decide)
  | none => exact hpow 32 (by decide)
  | l =>
    refine hpow t.longBits ?_
    rcases t.longBits_eq with h | h <;> rw [h] <;> decide
  | ll => exact hpow 64 (by decide)

theorem integerArg_eq (sp : IntSpec) (z : Size) {a : Arg t δ} {v : BitVec (z.bits t)}
    (h : z.part a = some v) (paras : List (Arg t δ)) :
    integerArg sp.conv.char z.level (a :: paras) = some (widen sp.conv.char v, z.expo t, paras) := by
  cases z <;> cases a <;> cases h <;> rfl

theorem widen_eq (sp : IntSpec) {n : Nat} (v : BitVec n) :
    widen sp.conv.char v = BitVec.ofInt 64 (sp.value v) := by
  have hchar : sp.conv.char = 'd' ↔ sp.conv = .d := by
    cases sp.conv <;> decide
  unfold widen IntSpec.value
  by_cases hd : sp.conv = .d
  · rw [if_pos (hchar.mpr hd), if_pos hd]
    rfl
  · rw [if_neg fun h => hd (hchar.mp h), if_neg hd, BitVec.ofInt_natCast, BitVec.ofNat_toNat]

theorem setWidth_ofInt (t : Target) (x : Int) :
    (BitVec.ofInt 64 x).setWidth t.bits = BitVec.ofInt t.bits x := by
  have hle : t.bits ≤ 64 := by
    rcases t.bits_eq with h | h
    · exact h ▸ by decide
    · exact Nat.le_of_eq h
  have hdvd : ((2 ^ t.bits : Nat) : Int) ∣ ((2 ^ 64 : Nat) : Int) :=
    Int.natCast_dvd_natCast.mpr (pow_dvd_pow 2 hle)
  have hpos : ((2 ^ t.bits : Nat) : Int) ≠ 0 := Int.natCast_ne_zero.mpr (Nat.ne_of_gt (Nat.two_pow_pos _))
  refine BitVec.eq_of_toNat_eq (Int.ofNat_inj.mp ?_)
  rw [BitVec.toNat_setWidth, BitVec.toNat_ofInt, BitVec.toNat_ofInt, Int.natCast_mod,
    Int.toNat_of_nonneg (Int.emod_nonneg _ (by decide)), Int.toNat_of_nonneg (Int.emod_nonneg _ hpos),
    Int.emod_emod_of_dvd _ hdvd]

theorem value_range (sp : IntSpec) {n : Nat} (v : BitVec n) :
    -2 ^ (n - 1) ≤ sp.value v ∧ sp.value v < 2 ^ n ∧ (sp.conv ≠ .d → 0 ≤ sp.value v) := by
  unfold IntSpec.value
  by_cases hd : sp.conv = .d
  · rw [if_pos hd]
    refine ⟨BitVec.le_toInt v, ?_, fun h => absurd hd h⟩
    have hlt := v.isLt
    have hle : v.toInt ≤ v.toNat := by
      rw [BitVec.toInt_eq_toNat_cond]
      split <;> omega
    exact Int.lt_of_le_of_lt hle (by exact_mod_cast hlt)
  · rw [if_neg hd]
    refine ⟨?_, by exact_mod_cast v.isLt, fun _ => Int.natCast_nonneg _⟩
    exact Int.le_trans (Int.neg_nonpos_of_nonneg (by positivity)) (Int.natCast_nonneg _)

theorem magnitude_eq (sp : IntSpec) (z : Size) (v : BitVec (z.bits t)) {neg : Bool}
    (hneg : neg = true ↔ sp.value v < 0) :
    magnitude t neg (z.expo t) (BitVec.ofInt 64 (sp.value v)) = (sp.value v).natAbs := by
  obtain ⟨hpow, hle, hpos, -⟩ := Size.bits_eq t z
  obtain ⟨hmin, hmax, -⟩ := value_range sp v
  generalize sp.value v = x at hneg hmin hmax
  have hhalf : (2 : Int) ^ z.bits t = 2 * 2 ^ (z.bits t - 1) := by
    rw [← pow_succ', Nat.sub_add_cancel hpos]
  have habs : x.natAbs < 2 ^ z.bits t := by
    have hcast : ((2 ^ z.bits t : Nat) : Int) = 2 ^ z.bits t := by push_cast; rfl
    have hpos' : (0 : Int) < 2 ^ (z.bits t - 1) := by positivity
    omega
  have hall : 2 ^ z.bits t ≤ 2 ^ 64 := Nat.pow_le_pow_right (by decide) hle
  have hval : (if neg then ~~~BitVec.ofInt 64 x + 1 else BitVec.ofInt 64 x).toNat = x.natAbs := by
    have hlow : (BitVec.ofInt 64 x).toNat = (x % 2 ^ 64).toNat := BitVec.toNat_ofInt x
    cases neg with
    | true =>
      have hx := hneg.mp rfl
      have hnot : ~~~BitVec.ofInt 64 x + 1 = -BitVec.ofInt 64 x := (BitVec.neg_eq_not_add _).symm
      rw [if_pos rfl, hnot, BitVec.toNat_neg, hlow]
      omega
    | false =>
      have hx : ¬x < 0 := fun h => nomatch hneg.mpr h
      rw [if_neg Bool.false_ne_true, hlow]
      omega
  unfold magnitude
  dsimp only
  split
  · have hmask : 2 ^ z.bits t - 1 < 2 ^ 64 := by omega
    rw [BitVec.toNat_and, hval, hpow, BitVec.toNat_ofNat, Nat.mod_eq_of_lt hmask,
      Nat.and_two_pow_sub_one_eq_mod, Nat.mod_eq_of_lt habs]
  · exact hval

/-! ## When it is the expected text -/

theorem alnumTab_ne_minus (lower : Bool) (d : Nat) : alnumTab lower d ≠ '-' := by
  have hsmall : ∀ lower, ∀ d < 16, alnumTab lower d ≠ '-' := by decide
  by_cases hd : d < 16
  · exact hsmall lower d hd
  · have hlen : ((if lower then "0123456789abcdef" else "0123456789ABCDEF").toList).length ≤ d := by
      cases lower <;> exact Nat.le_of_not_lt hd
    unfold alnumTab
    rw [getD_eq_getElem?_getD, getElem?_eq_none hlen]
    decide

theorem numeral_ne_minus {lower : Bool} {base m : Nat} {c : Char}
    (hc : c ∈ IntSpec.numeral lower base m) : c ≠ '-' := by
  unfold IntSpec.numeral at hc
  split at hc
  · exact mem_singleton.mp hc ▸ by decide
  · obtain ⟨d, -, rfl⟩ := mem_map.mp hc
    exact alnumTab_ne_minus lower d

/-- A rendered number starts with a minus exactly if it has one. -/
theorem render_head {neg signShow : Bool} {least : Nat} {pad : Char} {num : List Char}
    (hpad : pad ≠ '-') (hnum : ∀ c ∈ num, c ≠ '-') :
    (render neg signShow least pad num).head? = some '-' ↔ neg = true := by
  have hbody : ∀ c ∈ List.replicate (least - num.length) pad ++ num, c ≠ '-' := fun c hc => by
    rcases mem_append.mp hc with hc | hc
    · exact eq_of_mem_replicate hc ▸ hpad
    · exact hnum c hc
  unfold render
  rw [append_assoc]
  cases neg with
  | true => simp
  | false =>
    cases signShow with
    | true => simp
    | false =>
      refine ⟨fun h => absurd rfl (hbody '-' (mem_of_mem_head? h)), fun h => nomatch h⟩

namespace IntSpec

theorem expected_eq (sp : IntSpec) (v : Int) :
    sp.expected v = render (decide (v < 0)) (sp.plus && sp.conv.signed) sp.width
      (if sp.zeroPadded then '0' else ' ') (sp.number v) := by
  unfold expected render
  by_cases hv : v < 0 <;> simp [hv]

/-- The text of the calls, by the flags of the conversion. -/
theorem calls_written (sp : IntSpec) (z : Size) (v : BitVec (z.bits t)) :
    written (integerCalls sp.conv.char (widen sp.conv.char v) (sp.flags t) (z.expo t)) =
      render (sp.readsMinus t (sp.value v)) (sp.plus && sp.conv.signed) (sp.width % 256)
        (if (sp.flags t).zeroPadding then '0' else ' ')
        (numeral (sp.conv = .x) sp.conv.base
          (magnitude t (sp.readsMinus t (sp.value v)) (z.expo t) (BitVec.ofInt 64 (sp.value v)))) := by
  have hleast : ((sp.flags t).ent.setWidth 8).toNat = sp.width % 256 := by
    have hdvd : 2 ^ 8 ∣ 2 ^ t.bits := pow_dvd_pow 2 ((by decide : 8 ≤ 32).trans t.bits_ge)
    rw [flags_ent, BitVec.toNat_setWidth, BitVec.toNat_ofNat, Nat.mod_mod_of_dvd _ hdvd]
    rfl
  rw [integerCalls_written, widen_eq, setWidth_ofInt, flags_signed, hleast]
  rfl

/-- The text of the calls is the expected one exactly for a value and a width that fit. -/
theorem written_iff_fits (sp : IntSpec) (z : Size) (v : BitVec (z.bits t)) :
    written (integerCalls sp.conv.char (widen sp.conv.char v) (sp.flags t) (z.expo t)) =
      sp.expected (sp.value v) ↔ sp.Fits t (sp.value v) := by
  have hminus : ∀ {b : Bool}, (if b then '0' else ' ') ≠ '-' := fun {b} => by cases b <;> decide
  rw [calls_written, expected_eq]
  have hreads : sp.readsMinus t (sp.value v) = decide (sp.value v < 0) →
      magnitude t (sp.readsMinus t (sp.value v)) (z.expo t) (BitVec.ofInt 64 (sp.value v)) =
        (sp.value v).natAbs := fun h => magnitude_eq sp z v (by rw [h, decide_eq_true_iff])
  constructor
  · intro htext
    have hsign : sp.readsMinus t (sp.value v) = decide (sp.value v < 0) := by
      refine Bool.eq_iff_iff.mpr ?_
      rw [← render_head hminus fun c hc => numeral_ne_minus hc, htext]
      exact render_head hminus fun c hc => numeral_ne_minus hc
    refine ⟨?_, fun hsigned => ?_⟩
    · have habs : (sp.value v).natAbs < 2 ^ 64 := by
        rw [← hreads hsign]
        exact BitVec.isLt _
      have hdigits : (sp.number (sp.value v)).length ≤ 64 :=
        length_numeral_le _ (by cases sp.conv <;> decide) habs
      rw [hreads hsign, hsign] at htext
      have hlen := congrArg List.length htext
      unfold render at hlen
      simp only [length_append, length_replicate] at hlen
      change _ + (sp.width % 256 - (sp.number (sp.value v)).length) +
        (sp.number (sp.value v)).length = _ at hlen
      omega
    · unfold readsMinus at hsign
      rw [hsigned, Bool.true_and] at hsign
      rw [hsign, decide_eq_true_iff]
  · intro hfits
    have hsign : sp.readsMinus t (sp.value v) = decide (sp.value v < 0) := by
      unfold readsMinus
      cases hsigned : sp.conv.signed with
      | true =>
        rw [Bool.true_and]
        exact Bool.eq_iff_iff.mpr ((hfits.sign hsigned).trans decide_eq_true_iff.symm)
      | false =>
        have hd : sp.conv ≠ .d := fun hd => by
          rw [hd] at hsigned
          exact absurd hsigned (by decide)
        have hnonneg := (value_range sp v).2.2 hd
        rw [Bool.false_and, decide_eq_false (Int.not_lt.mpr hnonneg)]
    rw [hreads hsign, hsign, flags_zeroPadding sp hfits.width_le,
      Nat.mod_eq_of_lt (Nat.lt_succ_of_le hfits.width_le)]
    rfl

end IntSpec

/-! ## Conversions of a format -/

/-- The walk comes from one state to another with these calls. -/
inductive Walk.Reaches (floating : Bool → δ → List (List Char)) :
    Walk t δ → List Call → Walk t δ → Prop where
  | refl (s : Walk t δ) : Reaches floating s [] s
  | step {s s' s'' : Walk t δ} {calls calls' : List Call} (h : s.step floating = .next calls s')
      (h' : Reaches floating s' calls' s'') : Reaches floating s (calls ++ calls') s''

namespace Walk

variable {floating : Bool → δ → List (List Char)}

variable {s s' : Walk t δ} {calls : List Call} {a : Arg t δ}

theorem Reaches.length_le (h : Reaches floating s calls s') :
    s'.text.length ≤ s.text.length := by
  induction h with
  | refl s => exact le_rfl
  | step hstep _ ih => exact ih.trans (Nat.le_of_lt (step_length hstep))

theorem Reaches.calls_unique {calls' : List Call}
    (h : Reaches floating s calls s') (h' : Reaches floating s calls' s') : calls = calls' := by
  induction h generalizing calls' with
  | refl s =>
    cases h' with
    | refl => rfl
    | step hstep hrest =>
      exact absurd (step_length hstep) (Nat.not_lt_of_le hrest.length_le)
  | step hstep hrest ih =>
    cases h' with
    | refl => exact absurd (step_length hstep) (Nat.not_lt_of_le hrest.length_le)
    | step hstep' hrest' =>
      cases hstep.symm.trans hstep'
      rw [ih hrest']

theorem convert_integer (sp : IntSpec) (z : Size) {v : BitVec (z.bits t)}
    (ha : z.part a = some v) (text : List Char) {f : Flags t} (hf : f.sizlevel = z.level)
    (paras : List (Arg t δ)) :
    convert floating sp.conv.char text f (a :: paras) =
      some (integerCalls sp.conv.char (widen sp.conv.char v) f (z.expo t), text, paras) := by
  have hchar : sp.conv.char ≠ 'c' ∧ (sp.conv.char = 'o' ∨ sp.conv.char = 'd' ∨ sp.conv.char = 'b' ∨
      sp.conv.char = 'u' ∨ sp.conv.char = 'x' ∨ sp.conv.char = 'X') := by
    cases sp.conv <;> decide
  unfold convert
  rw [if_neg hchar.1, if_pos hchar.2, hf, integerArg_eq sp z ha paras]
  rfl

theorem step_fed (floating : Bool → δ → List (List Char)) {f : Flags t} (hf : f.percentFeed = false) (c : Char) (text : List Char)
    (paras : List (Arg t δ)) :
    step floating ⟨c :: text, { f with percentFeed := true }, paras⟩ =
      directive floating f paras c text := by
  obtain ⟨signed, feed, sizlevel, ent, zero⟩ := f
  cases hf
  rfl

/-- A state with the same first iteration comes to the same states. -/
theorem Reaches.of_step_eq {s₀ : Walk t δ} (h : Reaches floating s calls s')
    (hne : s ≠ s') (hstep : s₀.step floating = s.step floating) : Reaches floating s₀ calls s' := by
  cases h with
  | refl => exact absurd rfl hne
  | step h h' => exact .step (hstep.trans h) h'

/-- Behind a percent sign the walk takes the modifiers and the conversion. -/
theorem reaches_modifiers (floating : Bool → δ → List (List Char)) (sp : IntSpec) (z : Size) {v : BitVec (z.bits t)}
    (ha : z.part a = some v) (post : List Char) (paras : List (Arg t δ)) :
    ∀ (ms : List Modifier) (f : Flags t), f.percentFeed = false →
      (ms.foldl Flags.apply f).sizlevel = z.level →
        Reaches floating
          ⟨ms.map Modifier.char ++ sp.conv.char :: post, { f with percentFeed := true }, a :: paras⟩
          (integerCalls sp.conv.char (widen sp.conv.char v) (ms.foldl Flags.apply f) (z.expo t))
          ⟨post, .clear, paras⟩
  | [], f, hf, hlevel => by
    change f.sizlevel = z.level at hlevel
    have hstep := step_fed floating hf sp.conv.char post (a :: paras)
    unfold directive at hstep
    rw [f.modify_conv, convert_integer sp z ha post hlevel paras] at hstep
    have hone := Reaches.step hstep (.refl _)
    rw [append_nil] at hone
    exact hone
  | m :: ms, f, hf, hlevel => by
    have hfed : (f.apply m).percentFeed = false := by
      rw [← hf]
      cases m with
      | plus => rfl
      | l => simp only [Flags.apply]; split <;> rfl
      | h => simp only [Flags.apply]; split <;> rfl
      | digit d => simp only [Flags.apply]; split <;> rfl
    have hstep := step_fed floating hf m.char
      (ms.map Modifier.char ++ sp.conv.char :: post) (a :: paras)
    unfold directive at hstep
    rw [f.modify_char] at hstep
    exact .step hstep (reaches_modifiers floating sp z ha post paras ms (f.apply m) hfed hlevel)

theorem reaches_conversion (sp : IntSpec) {z : Size} (hz : sp.size = some z)
    {v : BitVec (z.bits t)} (ha : z.part a = some v) (post : List Char) (paras : List (Arg t δ)) :
    Reaches floating ⟨sp.text ++ post, .clear, a :: paras⟩
      (integerCalls sp.conv.char (widen sp.conv.char v) (sp.flags t) (z.expo t))
      ⟨post, .clear, paras⟩ := by
  have hmods := reaches_modifiers floating sp z ha post paras sp.mods .clear rfl
    (sp.flags_sizlevel hz)
  have htext : sp.text ++ post = '%' :: (sp.mods.map Modifier.char ++ sp.conv.char :: post) := by
    unfold IntSpec.text
    rw [cons_append, append_assoc]
    rfl
  rw [htext]
  cases hrest : sp.mods.map Modifier.char ++ sp.conv.char :: post with
  | nil => exact absurd (append_eq_nil_iff.mp hrest).2 (cons_ne_nil _ _)
  | cons c text =>
    -- the percent sign feeds the first character behind it
    rw [hrest] at hmods
    refine hmods.of_step_eq (fun heq => ?_) rfl
    exact Bool.noConfusion (congrArg (fun s : Walk t δ => s.flags.percentFeed) heq)

end Walk

/-! ## Formatting into a buffer -/

section

variable (floating : Bool → δ → List (List Char)) (fmt : List Char) (lst : List (Arg t δ))

/-- A conversion with its argument stands in the format. -/
def Occurs (sp : IntSpec) (a : Arg t δ) (post : List Char) (paras : List (Arg t δ)) : Prop :=
  ∃ calls, Walk.Reaches floating ⟨fmt.takeWhile (· != nul), .clear, lst⟩ calls
    ⟨sp.text ++ post, .clear, a :: paras⟩

/-- Every integer conversion of the format writes the expected text. -/
def ConversionsExpected : Prop :=
  ∀ sp a post paras, Occurs floating fmt lst sp a post paras →
    ∀ z v, sp.size = some z → z.part a = some v →
      ∃ calls, Walk.Reaches floating ⟨sp.text ++ post, .clear, a :: paras⟩ calls
        ⟨post, .clear, paras⟩ ∧ written calls = sp.expected (sp.value v)

/-- Every integer conversion of the format has a width and a value that fit. -/
def ConversionsFit : Prop :=
  ∀ sp a post paras, Occurs floating fmt lst sp a post paras →
    ∀ z v, sp.size = some z → z.part a = some v → sp.Fits t (sp.value v)

/-- `outsfmtlstbuf` writes `str` and a terminator, and `outsfmtlstlen` is its length. -/
def FillsBuffer (str : List Char) : Prop :=
  (∀ buf, ∃ ret buf', outsfmtlstbuf floating buf (some fmt) lst = some (ret, buf') ∧
    Wrote buf buf' str) ∧
  outsfmtlstlen floating (some fmt) lst = some (str.length : Int)

/-- `outsfmtlstbufn` writes what `len` has room for of `str`, and a terminator. -/
def FillsBounded (len : BitVec t.bits) (str : List Char) : Prop :=
  ∀ buf, ∃ ret buf', outsfmtlstbufn floating buf len (some fmt) lst = some (ret, buf') ∧
    Wrote buf buf' (str.take (len.toNat - 1))

end

variable {floating : Bool → δ → List (List Char)} {fmt : List Char} {lst : List (Arg t δ)}
  {calls : List Call} {len : BitVec t.bits}

theorem conversions_iff :
    ConversionsExpected floating fmt lst ↔ ConversionsFit floating fmt lst := by
  constructor
  · intro h sp a post paras hoccurs z v hz hv
    obtain ⟨calls, hreaches, htext⟩ := h sp a post paras hoccurs z v hz hv
    rw [hreaches.calls_unique (Walk.reaches_conversion sp hz hv post paras)] at htext
    exact (sp.written_iff_fits z v).mp htext
  · intro h sp a post paras hoccurs z v hz hv
    exact ⟨_, Walk.reaches_conversion sp hz hv post paras,
      (sp.written_iff_fits z v).mpr (h sp a post paras hoccurs z v hz hv)⟩

theorem fillsBuffer_iff (h : formatCalls floating (some fmt) lst = some calls) :
    FillsBuffer floating fmt lst (written calls) ↔ (written calls).length < 2 ^ 31 := by
  obtain ⟨n, hlen, hn⟩ := outsfmtlstlen_eq h
  unfold FillsBuffer
  rw [hlen, Option.some_inj, ← hn]
  exact ⟨fun h => h.2, fun hn => ⟨outsfmtlstbuf_wrote h, hn⟩⟩

theorem fillsBounded_iff (h : formatCalls floating (some fmt) lst = some calls)
    (hlen : 1 ≤ len.toNat) : FillsBounded floating fmt lst len (written calls) ↔ len.toNat ≠ 1 := by
  refine ⟨fun hfills hone => ?_, fun hne buf => outsfmtlstbufn_wrote h buf (by omega)⟩
  obtain ⟨ret, buf', hrun, hwrote⟩ := hfills fun _ => 'x'
  have hle : len ≤ 1 := by
    rw [BitVec.le_def, t.toNat_one]
    exact Nat.le_of_eq hone
  unfold outsfmtlstbufn at hrun
  rw [if_pos hle] at hrun
  cases hrun
  have hterm := hwrote.terminator
  exact absurd hterm (by decide)

/-- A bounded buffer gets a prefix of what an unbounded one gets, and every integer conversion
writes the digits of its value, exactly for an output below 2 GiB, a buffer of more than one
byte, and conversions that fit. -/
theorem outFormat_exact (h : formatCalls floating (some fmt) lst = some calls)
    (hlen : 1 ≤ len.toNat) :
    (FillsBuffer floating fmt lst (written calls) ∧ FillsBounded floating fmt lst len (written calls) ∧
      ConversionsExpected floating fmt lst) ↔
    ((written calls).length < 2 ^ 31 ∧ len.toNat ≠ 1 ∧ ConversionsFit floating fmt lst) := by
  rw [fillsBuffer_iff h, fillsBounded_iff h hlen, conversions_iff]

/-! ## Runs -/

theorem Walk.run_done {s : Walk t δ} (h : s.step floating = .done) : s.run floating = some [] := by
  unfold Walk.run
  split
  · rfl
  · rename_i hstep
    cases hstep.symm.trans h
  · rename_i hstep
    cases hstep.symm.trans h

theorem Walk.run_next {s s' : Walk t δ} {calls calls' : List Call} (h : s.step floating = .next calls s')
    (h' : s'.run floating = some calls') : s.run floating = some (calls ++ calls') := by
  unfold Walk.run
  split
  · rename_i hstep
    cases hstep.symm.trans h
  · rename_i hstep
    cases hstep.symm.trans h
  · rename_i hstep
    cases hstep.symm.trans h
    rw [h']
    rfl

/-- A target with 64 bits. -/
def target64 : Target := ⟨64, 64, Or.inr rfl, Or.inr rfl⟩

/-- No argument is a `double`. -/
def noFloat : Bool → Empty → List (List Char) := fun _ d => nomatch d

theorem formatCalls_ab :
    formatCalls (t := target64) noFloat (some ['a', 'b']) [] = some [.out ['a', 'b']] := by
  let s (text : List Char) : Walk target64 Empty := ⟨text, .clear, []⟩
  have hstep : (s ['a', 'b']).step noFloat = .next [.out ['a', 'b']] (s []) := rfl
  have hdone : (s []).step noFloat = .done := rfl
  exact Walk.run_next hstep (Walk.run_done hdone)

/-- A buffer of one byte stays as it is. -/
theorem outsfmtlstbufn_one :
    ∃ calls, formatCalls (t := target64) noFloat (some ['a', 'b']) [] = some calls ∧
      ¬(FillsBuffer (t := target64) noFloat ['a', 'b'] [] (written calls) ∧
        FillsBounded (t := target64) noFloat ['a', 'b'] [] 1 (written calls) ∧
        ConversionsExpected (t := target64) noFloat ['a', 'b'] []) := by
  refine ⟨_, formatCalls_ab, fun h => ?_⟩
  exact absurd rfl ((fillsBounded_iff formatCalls_ab (by decide)).mp h.2.1)

/-- The format `%+05d` with the value -42. -/
theorem outFormat_exact_minus :
    (FillsBuffer (t := target64) noFloat ['%', '+', '0', '5', 'd'] [.int (-42)]
        ['-', '0', '0', '0', '4', '2'] ∧
      FillsBounded (t := target64) noFloat ['%', '+', '0', '5', 'd'] [.int (-42)] 8
        ['-', '0', '0', '0', '4', '2'] ∧
      ConversionsExpected (t := target64) noFloat ['%', '+', '0', '5', 'd'] [.int (-42)]) ↔
    (['-', '0', '0', '0', '4', '2'].length < 2 ^ 31 ∧ (8 : BitVec 64).toNat ≠ 1 ∧
      ConversionsFit (t := target64) noFloat ['%', '+', '0', '5', 'd'] [.int (-42)]) := by
  let s (text : List Char) (f : Flags target64) : Walk target64 Empty := ⟨text, f, [.int (-42)]⟩
  have hsign : (s ['%', '+', '0', '5', 'd'] .clear).step noFloat =
      .next [] (s ['0', '5', 'd'] ⟨true, true, 0, 0, false⟩) := rfl
  have hzero : (s ['0', '5', 'd'] ⟨true, true, 0, 0, false⟩).step noFloat =
      .next [] (s ['5', 'd'] ⟨true, true, 0, 0, true⟩) := rfl
  have hwidth : (s ['5', 'd'] ⟨true, true, 0, 0, true⟩).step noFloat =
      .next [] (s ['d'] ⟨true, true, 0, 5, true⟩) := rfl
  have hconv : (s ['d'] ⟨true, true, 0, 5, true⟩).step noFloat =
      .next [.out ['-'], .out ['0'], .out ['0'], .out ['0'], .out ['4', '2']]
        ⟨[], .clear, []⟩ := rfl
  have hdone : (⟨[], .clear, []⟩ : Walk target64 Empty).step noFloat = .done := rfl
  have hcalls : formatCalls (t := target64) noFloat (some ['%', '+', '0', '5', 'd']) [.int (-42)] =
      some [.out ['-'], .out ['0'], .out ['0'], .out ['0'], .out ['4', '2']] :=
    Walk.run_next hsign (Walk.run_next hzero (Walk.run_next hwidth (Walk.run_next hconv
      (Walk.run_done hdone))))
  exact outFormat_exact hcalls (by decide)

end Unisym.Text
