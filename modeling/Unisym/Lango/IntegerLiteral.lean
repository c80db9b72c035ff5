/-
# `IntegerLiteral` — integer constants of the C frontend

`ParseIntegerLiteral` reads a numeral with its suffix and looks for the first type that holds its value.  An integer
constant of C99 (6.4.4.1) is stated apart from it (`Constant`), with the list of types for each of its forms, and the
reader accepts exactly the constants, with the type and the value that they have (`parseIntegerLiteral_eq_some_iff`).
-/
import Mathlib.Data.Int.ModEq
import Mathlib.Data.Nat.Digits.Defs
import Unisym.Lango.FrontendC

namespace Unisym.Lango.FrontendC

open List

/-- A character string: its bytes in front of the terminator -/
structure CString where
  bytes : List UInt8
  noZero : 0 ∉ bytes

/-! ## The reader -/

def digitValue (character : UInt8) : Nat :=
  if 48 ≤ character ∧ character ≤ 57 then (character - 48).toNat
  else if 97 ≤ character ∧ character ≤ 102 then (character - 97 + 10).toNat
  else if 65 ≤ character ∧ character ≤ 70 then (character - 65 + 10).toNat
  else 16

def isSuffixCharacter (character expected : UInt8) : Bool := character == expected || character == expected - 97 + 65

structure IntegerLiteralParts where
  magnitude : Nat := 0
  isDecimal : Bool := true
  hasUnsignedSuffix : Bool := false
  longSuffixCount : Nat := 0
deriving DecidableEq, Repr

/-- The loop over the digits: the magnitude, whether there is a digit, and where it ends.  The terminator is no digit. -/
def readDigits (base : Nat) : (cursor : List UInt8) → (magnitude : Nat) → (hasDigit : Bool) →
    Option (Nat × Bool × List UInt8)
  | [], magnitude, hasDigit => some (magnitude, hasDigit, [])
  | c :: cursor, magnitude, hasDigit =>
      let digit := digitValue c
      if digit ≥ 16 then some (magnitude, hasDigit, c :: cursor)
      else if digit ≥ base then none
      else if magnitude > (2 ^ 64 - 1 - digit) / base then none
      else readDigits base cursor ((magnitude * base + digit) % 2 ^ 64) true

/-- The suffix `l` or `ll`, in one case: its count, and where it ends -/
def readLong : (cursor : List UInt8) → Nat × List UInt8
  | [] => (0, [])
  | c :: cursor =>
      if isSuffixCharacter c 108 then
        if cursor.head? = some c then (2, cursor.tail) else (1, cursor)
      else (0, c :: cursor)

/-- The suffix `u`, and where it ends -/
def readUnsigned : (cursor : List UInt8) → Bool × List UInt8
  | [] => (false, [])
  | c :: cursor => if isSuffixCharacter c 117 then (true, cursor) else (false, c :: cursor)

/-- The suffixes: `u` and then `l`, or `l` and then `u` -/
def readSuffix (cursor : List UInt8) : Bool × Nat × List UInt8 :=
  match readUnsigned cursor with
  | (true, cursor) => (true, readLong cursor)
  | (false, cursor) =>
      match readLong cursor with
      | (0, cursor) => (false, 0, cursor)
      | (count, cursor) => let (hasUnsigned, cursor) := readUnsigned cursor; (hasUnsigned, count, cursor)

/-- The base, and where the digits start -/
def detectBase : (text : List UInt8) → Nat × List UInt8
  | 48 :: x :: cursor => if x = 120 ∨ x = 88 then (16, cursor) else (8, 48 :: x :: cursor)
  | 48 :: cursor => (8, 48 :: cursor)
  | cursor => (10, cursor)

/-- The digits and the suffixes behind the base -/
def parseDigits (base : Nat) (cursor : List UInt8) : Option IntegerLiteralParts :=
  match readDigits base cursor 0 false with
  | some (magnitude, true, cursor) =>
      let (hasUnsigned, count, cursor) := readSuffix cursor
      if cursor = [] then some ⟨magnitude, base = 10, hasUnsigned, count⟩ else none
  | _ => none

def parseIntegerLiteralParts (text : CString) : Option IntegerLiteralParts :=
  let (base, cursor) := detectBase text.bytes
  parseDigits base cursor

def integerBits (target : FrontendCTargetInfo) : FrontendCIntegerRank → Nat
  | .bool => 1
  | .char => target.charBits
  | .short => target.shortBits
  | .int => target.intBits
  | .long => target.longBits
  | .longLong => target.longLongBits

def magnitudeFits (magnitude bits : Nat) (isSigned : Bool) : Bool :=
  if bits = 0 ∨ bits > 64 then false
  else if isSigned then
    magnitude ≤ if bits = 64 then 2 ^ 63 - 1 else 2 ^ (bits - 1) - 1
  else magnitude ≤ if bits = 64 then 2 ^ 64 - 1 else 2 ^ bits - 1

structure IntegerLiteralCandidate where
  rank : FrontendCIntegerRank
  isSigned : Bool
deriving DecidableEq, Repr

/-- What `ListIntegerCandidates` appends for one rank -/
def candidatesOf (parts : IntegerLiteralParts) (rank : FrontendCIntegerRank) : List IntegerLiteralCandidate :=
  ⟨rank, !parts.hasUnsignedSuffix⟩ :: if !parts.isDecimal && !parts.hasUnsignedSuffix then [⟨rank, false⟩] else []

def listIntegerCandidates (parts : IntegerLiteralParts) : List IntegerLiteralCandidate :=
  if parts.longSuffixCount = 2 then candidatesOf parts .longLong
  else if parts.longSuffixCount = 1 then candidatesOf parts .long ++ candidatesOf parts .longLong
  else candidatesOf parts .int ++ candidatesOf parts .long ++ candidatesOf parts .longLong

def signedBitPattern (magnitude : Nat) : Int :=
  if magnitude ≤ 2 ^ 63 - 1 then magnitude else -1 - (2 ^ 64 - 1 - magnitude)

def parseIntegerLiteral (text : CString) (target : FrontendCTargetInfo) : Option (Int × FrontendCType) := do
  let parts ← parseIntegerLiteralParts text
  let candidate ← (listIntegerCandidates parts).find? fun candidate =>
    magnitudeFits parts.magnitude (integerBits target candidate.rank) candidate.isSigned
  some (signedBitPattern parts.magnitude,
    { integerRank := candidate.rank, isSigned := candidate.isSigned })

/-! ## Integer constants -/

/-- The forms of a numeral -/
inductive Form where
  | decimal | octal | hexadecimal
deriving DecidableEq, Repr

def Form.base : Form → Nat
  | decimal => 10
  | octal => 8
  | hexadecimal => 16

/-- All of them are digits of the base. -/
def Digits (base : Nat) (digits : List UInt8) : Prop := ∀ c ∈ digits, digitValue c < base

/-- The spelling of a numeral, and its digits -/
inductive Numeral : Form → List UInt8 → List UInt8 → Prop
  | decimal {d : UInt8} {ds : List UInt8} : d ≠ 48 → Digits 10 (d :: ds) → Numeral .decimal (d :: ds) (d :: ds)
  | octal {ds : List UInt8} : Digits 8 ds → Numeral .octal (48 :: ds) (48 :: ds)
  | hexadecimal {x : UInt8} {ds : List UInt8} :
      x = 120 ∨ x = 88 → ds ≠ [] → Digits 16 ds → Numeral .hexadecimal (48 :: x :: ds) ds

/-- `u` or `U` -/
def UnsignedSuffix (s : List UInt8) : Prop := s = [117] ∨ s = [85]

/-- `l` or `L`; `ll` or `LL` -/
def LongSuffix : Nat → List UInt8 → Prop
  | 1, s => s = [108] ∨ s = [76]
  | 2, s => s = [108, 108] ∨ s = [76, 76]
  | _, _ => False

/-- The suffixes: whether there is an unsigned one, and how many letters the long one has -/
inductive Suffix : Bool → Nat → List UInt8 → Prop
  | none : Suffix false 0 []
  | unsigned {s : List UInt8} : UnsignedSuffix s → Suffix true 0 s
  | long {n : Nat} {t : List UInt8} : LongSuffix n t → Suffix false n t
  | unsignedLong {n : Nat} {s t : List UInt8} : UnsignedSuffix s → LongSuffix n t → Suffix true n (s ++ t)
  | longUnsigned {n : Nat} {s t : List UInt8} : UnsignedSuffix s → LongSuffix n t → Suffix true n (t ++ s)

/-- An integer constant -/
structure Constant where
  form : Form
  digits : List UInt8
  isUnsigned : Bool
  long : Nat

namespace Constant

/-- The constant is spelled so. -/
def Spelled (c : Constant) (text : List UInt8) : Prop :=
  ∃ numeral suffix, text = numeral ++ suffix ∧ Numeral c.form numeral c.digits ∧ Suffix c.isUnsigned c.long suffix

/-- Its value: the first digit has the most weight. -/
def value (c : Constant) : Nat := Nat.ofDigits c.form.base (c.digits.reverse.map digitValue)

/-- The types that the standard lists for it, in their order -/
def types (c : Constant) : List IntegerLiteralCandidate :=
  match c.form, c.isUnsigned, c.long with
  | .decimal, false, 0 => [⟨.int, true⟩, ⟨.long, true⟩, ⟨.longLong, true⟩]
  | _, false, 0 => [⟨.int, true⟩, ⟨.int, false⟩, ⟨.long, true⟩, ⟨.long, false⟩, ⟨.longLong, true⟩, ⟨.longLong, false⟩]
  | _, true, 0 => [⟨.int, false⟩, ⟨.long, false⟩, ⟨.longLong, false⟩]
  | .decimal, false, 1 => [⟨.long, true⟩, ⟨.longLong, true⟩]
  | _, false, 1 => [⟨.long, true⟩, ⟨.long, false⟩, ⟨.longLong, true⟩, ⟨.longLong, false⟩]
  | _, true, 1 => [⟨.long, false⟩, ⟨.longLong, false⟩]
  | .decimal, false, _ => [⟨.longLong, true⟩]
  | _, false, _ => [⟨.longLong, true⟩, ⟨.longLong, false⟩]
  | _, true, _ => [⟨.longLong, false⟩]

/-- A type of this width and sign can represent the value. -/
def Fits (c : Constant) (target : FrontendCTargetInfo) (type : IntegerLiteralCandidate) : Prop :=
  let bits := integerBits target type.rank
  0 < bits ∧ c.value < 2 ^ if type.isSigned then bits - 1 else bits

/-- The type of the constant: the first of the list that can represent its value -/
def HasType (c : Constant) (target : FrontendCTargetInfo) (type : IntegerLiteralCandidate) : Prop :=
  ∃ before after, c.types = before ++ type :: after ∧ c.Fits target type ∧ ∀ t ∈ before, ¬ c.Fits target t

end Constant

/-! ## The digits -/

/-- The value of digits behind a magnitude -/
def numeral (base magnitude : Nat) (digits : List UInt8) : Nat :=
  digits.foldl (fun magnitude c => magnitude * base + digitValue c) magnitude

theorem le_numeral {base : Nat} (hb : 0 < base) (magnitude : Nat) (digits : List UInt8) :
    magnitude ≤ numeral base magnitude digits := by
  induction digits generalizing magnitude with
  | nil => exact Nat.le_refl _
  | cons c digits ih =>
    have hstep : magnitude ≤ magnitude * base := Nat.le_mul_of_pos_right magnitude hb
    have htail := ih (magnitude * base + digitValue c)
    rw [numeral, foldl_cons, ← numeral]
    omega

theorem numeral_eq_ofDigits (base magnitude : Nat) (digits : List UInt8) :
    numeral base magnitude digits =
      Nat.ofDigits base (digits.reverse.map digitValue) + magnitude * base ^ digits.length := by
  induction digits generalizing magnitude with
  | nil => simp [numeral]
  | cons c digits ih =>
    rw [numeral, foldl_cons, ← numeral, ih, reverse_cons, map_append, Nat.ofDigits_append]
    simp only [length_map, length_reverse, map_cons, map_nil, Nat.ofDigits_singleton,
      length_cons, pow_succ]
    ring

/-- What follows is no digit of any base. -/
def Ends (rest : List UInt8) : Prop := ∀ c ∈ rest.head?, 16 ≤ digitValue c

/-- The loop reads all the digits, if they are digits of the base and their value is a word. -/
theorem readDigits_eq_some_iff {base : Nat} (hb : 0 < base) (hb' : base ≤ 16) {cursor : List UInt8} {m : Nat}
    {d : Bool} (hm : m < 2 ^ 64) {m' : Nat} {d' : Bool} {rest : List UInt8} :
    readDigits base cursor m d = some (m', d', rest) ↔
      ∃ ds, cursor = ds ++ rest ∧ Digits base ds ∧ Ends rest ∧ m' = numeral base m ds ∧ m' < 2 ^ 64 ∧
        d' = (d || !ds.isEmpty) := by
  induction cursor generalizing m d with
  | nil =>
    constructor
    · intro h
      cases h
      exact ⟨[], rfl, by simp [Digits], by simp [Ends], rfl, hm, by simp⟩
    · rintro ⟨ds, hds, -, -, rfl, -, rfl⟩
      obtain ⟨rfl, rfl⟩ := append_eq_nil_iff.mp hds.symm
      simp [readDigits, numeral]
  | cons c cursor ih =>
    simp only [readDigits]
    split
    · next hend =>
      constructor
      · intro h
        cases h
        exact ⟨[], rfl, by simp [Digits], by simpa [Ends] using hend, rfl, hm, by simp⟩
      · rintro ⟨ds, hds, hdigits, -, rfl, -, rfl⟩
        cases ds with
        | nil => simp at hds; simp [numeral, hds]
        | cons x ds =>
          obtain ⟨rfl, -⟩ := List.cons.inj hds
          have := hdigits c (by simp)
          omega
    split
    · next hend hbase =>
      constructor
      · intro h; cases h
      · rintro ⟨ds, hds, hdigits, hends, -⟩
        cases ds with
        | nil =>
          rw [nil_append] at hds
          have := hends c (by simp [← hds])
          omega
        | cons x ds =>
          obtain ⟨rfl, -⟩ := List.cons.inj hds
          have := hdigits c (by simp)
          omega
    next hend hbase =>
    -- the test of the source is that the next magnitude is a word
    have hword : m > (2 ^ 64 - 1 - digitValue c) / base ↔ 2 ^ 64 ≤ m * base + digitValue c := by
      rw [gt_iff_lt, Nat.div_lt_iff_lt_mul hb]
      omega
    have hcons : ∀ ds, Digits base (c :: ds) ↔ Digits base ds := fun ds => by
      simp only [Digits, forall_mem_cons]
      exact and_iff_right (by omega)
    split
    · next hlarge =>
      rw [hword] at hlarge
      constructor
      · intro h; cases h
      · rintro ⟨ds, hds, hdigits, hends, rfl, hm', -⟩
        cases ds with
        | nil =>
          rw [nil_append] at hds
          have := hends c (by simp [← hds])
          omega
        | cons x ds =>
          obtain ⟨rfl, -⟩ := List.cons.inj hds
          have hle := le_numeral hb (m * base + digitValue c) ds
          rw [numeral, foldl_cons, ← numeral] at hm'
          omega
    · next hsmall =>
      rw [hword] at hsmall
      have hnext : m * base + digitValue c < 2 ^ 64 := by omega
      rw [Nat.mod_eq_of_lt hnext, ih hnext]
      constructor
      · rintro ⟨ds, rfl, hdigits, hends, rfl, hm', rfl⟩
        exact ⟨c :: ds, rfl, (hcons ds).mpr hdigits, hends, rfl, hm', by simp⟩
      · rintro ⟨ds, hds, hdigits, hends, rfl, hm', rfl⟩
        cases ds with
        | nil =>
          rw [nil_append] at hds
          have := hends c (by simp [← hds])
          omega
        | cons x ds =>
          obtain ⟨rfl, rfl⟩ := List.cons.inj hds
          exact ⟨ds, rfl, (hcons ds).mp hdigits, hends, rfl, hm', by simp⟩

/-! ## The suffixes -/

theorem isSuffixCharacter_u (c : UInt8) : isSuffixCharacter c 117 = true ↔ c = 117 ∨ c = 85 := by
  simp [isSuffixCharacter]

theorem isSuffixCharacter_l (c : UInt8) : isSuffixCharacter c 108 = true ↔ c = 108 ∨ c = 76 := by
  simp [isSuffixCharacter]

variable {cursor rest suffix : List UInt8} {u : Bool} {n : Nat}

theorem readUnsigned_spec (h : readUnsigned cursor = (u, rest)) :
    u = false ∧ cursor = rest ∨ u = true ∧ ∃ s, UnsignedSuffix s ∧ cursor = s ++ rest := by
  cases cursor with
  | nil => cases h; exact .inl ⟨rfl, rfl⟩
  | cons c cursor =>
    rw [readUnsigned] at h
    split at h
    · next hc =>
        rw [isSuffixCharacter_u] at hc
        cases h
        exact .inr ⟨rfl, [c], by simpa [UnsignedSuffix] using hc, rfl⟩
    · cases h
      exact .inl ⟨rfl, rfl⟩

theorem readLong_spec (h : readLong cursor = (n, rest)) :
    n = 0 ∧ cursor = rest ∨ ∃ t, LongSuffix n t ∧ cursor = t ++ rest := by
  cases cursor with
  | nil => cases h; exact .inl ⟨rfl, rfl⟩
  | cons c cursor =>
    rw [readLong] at h
    split at h
    · next hc =>
        rw [isSuffixCharacter_l] at hc
        right
        split at h
        · next hhead =>
            obtain ⟨rest, rfl⟩ := head?_eq_some_iff.mp hhead
            cases h
            exact ⟨[c, c], by simpa [LongSuffix] using hc, rfl⟩
        · cases h
          exact ⟨[c], by simpa [LongSuffix] using hc, rfl⟩
    · cases h
      exact .inl ⟨rfl, rfl⟩

theorem longSuffix_iff {t : List UInt8} :
    LongSuffix n t ↔ n = 1 ∧ (t = [108] ∨ t = [76]) ∨ n = 2 ∧ (t = [108, 108] ∨ t = [76, 76]) := by
  match n with
  | 0 | 1 | 2 | _ + 3 => simp [LongSuffix]

theorem readSuffix_eq_nil_iff :
    readSuffix cursor = (u, n, []) ↔ Suffix u n cursor := by
  constructor
  · intro h
    rw [readSuffix] at h
    split at h
    · next cursor' hu =>
        obtain ⟨⟨⟩, -⟩ | ⟨-, s, hs, rfl⟩ := readUnsigned_spec hu
        injection h with hu' hl
        subst hu'
        obtain ⟨rfl, rfl⟩ | ⟨t, ht, rfl⟩ := readLong_spec hl
        · rw [append_nil]
          exact .unsigned hs
        · rw [append_nil]
          exact .unsignedLong hs ht
    · next cursor' hu =>
        obtain ⟨-, rfl⟩ | ⟨⟨⟩, -⟩ := readUnsigned_spec hu
        split at h
        · next cursor'' hl =>
            cases h
            obtain ⟨-, rfl⟩ | ⟨t, ht, -⟩ := readLong_spec hl
            · exact .none
            · exact ht.elim
        · next count cursor'' hcount hl =>
            obtain ⟨rfl, -⟩ | ⟨t, ht, rfl⟩ := readLong_spec hl
            · exact (hcount rfl).elim
            simp only [Prod.mk.injEq] at h
            obtain ⟨hu, rfl, hrest⟩ := h
            obtain ⟨hf, rfl⟩ | ⟨ht', s, hs, rfl⟩ := readUnsigned_spec (Prod.ext hu hrest)
            · rw [hf, append_nil]
              exact .long ht
            · rw [ht', append_nil]
              exact .longUnsigned hs ht
  · intro h
    cases h with
    | none => rfl
    | unsigned hs => rcases hs with rfl | rfl <;> rfl
    | long ht => rcases longSuffix_iff.mp ht with ⟨rfl, rfl | rfl⟩ | ⟨rfl, rfl | rfl⟩ <;> rfl
    | unsignedLong hs ht =>
      rcases hs with rfl | rfl <;>
        rcases longSuffix_iff.mp ht with ⟨rfl, rfl | rfl⟩ | ⟨rfl, rfl | rfl⟩ <;> rfl
    | longUnsigned hs ht =>
      rcases hs with rfl | rfl <;>
        rcases longSuffix_iff.mp ht with ⟨rfl, rfl | rfl⟩ | ⟨rfl, rfl | rfl⟩ <;> rfl

theorem Suffix.head (h : Suffix u n suffix) :
    ∀ c ∈ suffix.head?, c = 117 ∨ c = 85 ∨ c = 108 ∨ c = 76 := by
  cases h with
  | none => simp
  | unsigned hs => rcases hs with rfl | rfl <;> simp
  | long ht => rcases longSuffix_iff.mp ht with ⟨-, rfl | rfl⟩ | ⟨-, rfl | rfl⟩ <;> simp
  | unsignedLong hs ht => rcases hs with rfl | rfl <;> simp
  | longUnsigned hs ht => rcases longSuffix_iff.mp ht with ⟨-, rfl | rfl⟩ | ⟨-, rfl | rfl⟩ <;> simp

theorem Suffix.ends (h : Suffix u n suffix) : Ends suffix := by
  intro c hc
  rcases h.head c hc with rfl | rfl | rfl | rfl <;> decide

/-! ## The constants -/

theorem parseDigits_eq_some_iff {base : Nat} (hb : 0 < base) (hb' : base ≤ 16) {cursor : List UInt8}
    {parts : IntegerLiteralParts} :
    parseDigits base cursor = some parts ↔
      ∃ ds suffix u n, cursor = ds ++ suffix ∧ ds ≠ [] ∧ Digits base ds ∧ Suffix u n suffix ∧
        numeral base 0 ds < 2 ^ 64 ∧ parts = ⟨numeral base 0 ds, base = 10, u, n⟩ := by
  have hread := @readDigits_eq_some_iff base hb hb' cursor 0 false (by decide)
  rw [parseDigits]
  constructor
  · intro h
    split at h
    · next m suffix hm =>
        obtain ⟨ds, rfl, hdigits, -, rfl, hword, hds⟩ := hread.mp hm
        obtain ⟨u, n, rest, hs⟩ : ∃ u n rest, readSuffix suffix = (u, n, rest) := ⟨_, _, _, rfl⟩
        simp only [hs] at h
        split at h
        · next hrest =>
            rw [hrest, readSuffix_eq_nil_iff] at hs
            cases h
            exact ⟨ds, suffix, u, n, rfl, by simpa using hds, hdigits, hs, hword, rfl⟩
        · cases h
    · cases h
  · rintro ⟨ds, suffix, u, n, rfl, hds, hdigits, hs, hword, rfl⟩
    have hm := hread.mpr ⟨ds, rfl, hdigits, hs.ends, rfl, hword, rfl⟩
    have hnonempty : (false || !ds.isEmpty) = true := by simpa using hds
    rw [hnonempty] at hm
    rw [hm]
    simp only [readSuffix_eq_nil_iff.mpr hs, if_pos]

theorem detectBase_octal (h : ∀ x ∈ rest.head?, x ≠ 120 ∧ x ≠ 88) :
    detectBase (48 :: rest) = (8, 48 :: rest) := by
  cases rest with
  | nil => rfl
  | cons x rest =>
    have hx := h x rfl
    simp [detectBase, hx]

theorem detectBase_decimal {d : UInt8} (h : d ≠ 48) : detectBase (d :: rest) = (10, d :: rest) := by
  unfold detectBase
  split <;> simp_all

theorem Constant.value_eq_numeral (c : Constant) : c.value = numeral c.form.base 0 c.digits := by
  rw [Constant.value, numeral_eq_ofDigits, Nat.zero_mul, Nat.add_zero]

/-- The parts of a text are those of the constant that it spells, if its value is a word. -/
theorem parseIntegerLiteralParts_eq_some_iff {text : CString} {parts : IntegerLiteralParts} :
    parseIntegerLiteralParts text = some parts ↔
      ∃ c : Constant, c.Spelled text.bytes ∧ c.value < 2 ^ 64 ∧
        parts = ⟨c.value, c.form = .decimal, c.isUnsigned, c.long⟩ := by
  simp only [Constant.value_eq_numeral, parseIntegerLiteralParts]
  constructor
  · intro h
    match hbytes : text.bytes with
    | [] => rw [hbytes] at h; cases h
    | d :: rest =>
      rw [hbytes] at h
      by_cases hd : d = 48
      · subst hd
        by_cases hx : ∀ x ∈ rest.head?, x ≠ 120 ∧ x ≠ 88
        · rw [detectBase_octal hx, parseDigits_eq_some_iff (by simp) (by simp)] at h
          obtain ⟨ds, suffix, u, n, htext, hds, hdigits, hs, hword, rfl⟩ := h
          cases ds with
          | nil => exact (hds rfl).elim
          | cons d ds =>
            obtain ⟨rfl, -⟩ := List.cons.inj htext
            exact ⟨⟨.octal, 48 :: ds, u, n⟩, ⟨48 :: ds, suffix, htext,
              .octal fun c hc => hdigits c (mem_cons_of_mem _ hc), hs⟩, hword, rfl⟩
        · cases rest with
          | nil => simp at hx
          | cons x rest =>
            have hx' : x = 120 ∨ x = 88 := by simpa [or_iff_not_imp_left] using hx
            have hbase : detectBase (48 :: x :: rest) = (16, rest) := by simp [detectBase, hx']
            rw [hbase, parseDigits_eq_some_iff (by simp) (by simp)] at h
            obtain ⟨ds, suffix, u, n, rfl, hds, hdigits, hs, hword, rfl⟩ := h
            exact ⟨⟨.hexadecimal, ds, u, n⟩, ⟨48 :: x :: ds, suffix, rfl, .hexadecimal hx' hds hdigits, hs⟩,
              hword, rfl⟩
      · rw [detectBase_decimal hd, parseDigits_eq_some_iff (by simp) (by simp)] at h
        obtain ⟨ds, suffix, u, n, htext, hds, hdigits, hs, hword, rfl⟩ := h
        cases ds with
        | nil => exact (hds rfl).elim
        | cons d ds =>
          obtain ⟨rfl, -⟩ := List.cons.inj htext
          exact ⟨⟨.decimal, d :: ds, u, n⟩, ⟨d :: ds, suffix, htext, .decimal hd hdigits, hs⟩, hword, rfl⟩
  · rintro ⟨⟨form, digits, u, n⟩, ⟨spelling, suffix, htext, hnumeral, hs⟩, hword, rfl⟩
    simp only at hnumeral hs hword ⊢
    rw [htext]
    cases hnumeral with
    | @decimal d ds hd hdigits =>
      rw [cons_append, detectBase_decimal hd, parseDigits_eq_some_iff (by simp) (by simp)]
      exact ⟨d :: ds, suffix, u, n, rfl, cons_ne_nil _ _, hdigits, hs, hword, rfl⟩
    | @octal ds hdigits =>
      have hx : ∀ x ∈ (ds ++ suffix).head?, x ≠ 120 ∧ x ≠ 88 := by
        intro x hx
        cases ds with
        | nil => rcases hs.head x hx with rfl | rfl | rfl | rfl <;> decide
        | cons d ds =>
          obtain rfl : d = x := by simpa using hx
          have hdigit := hdigits d (by simp)
          constructor <;> rintro rfl <;> revert hdigit <;> decide
      rw [cons_append, detectBase_octal hx, parseDigits_eq_some_iff (by simp) (by simp)]
      refine ⟨48 :: ds, suffix, u, n, rfl, cons_ne_nil _ _, ?_, hs, hword, rfl⟩
      exact forall_mem_cons.mpr ⟨(by decide : digitValue 48 < 8), hdigits⟩
    | @hexadecimal x _ hx hds hdigits =>
      have hbase : detectBase (48 :: x :: digits ++ suffix) = (16, digits ++ suffix) := by simp [detectBase, hx]
      rw [hbase, parseDigits_eq_some_iff (by simp) (by simp)]
      exact ⟨digits, suffix, u, n, rfl, hds, hdigits, hs, hword, rfl⟩

/-! ## The types -/

/-- The candidates are the types that the standard lists. -/
theorem listIntegerCandidates_eq (c : Constant) (hs : Suffix c.isUnsigned c.long suffix) :
    listIntegerCandidates ⟨c.value, c.form = .decimal, c.isUnsigned, c.long⟩ = c.types := by
  obtain ⟨form, digits, u, n⟩ := c
  have hlong : n = 0 ∨ n = 1 ∨ n = 2 := by
    cases hs with
    | none | unsigned => exact .inl rfl
    | long ht | unsignedLong _ ht | longUnsigned _ ht =>
      rcases longSuffix_iff.mp ht with ⟨hn, -⟩ | ⟨hn, -⟩
      · exact .inr (.inl hn)
      · exact .inr (.inr hn)
  simp only [listIntegerCandidates, candidatesOf, Constant.types]
  rcases hlong with rfl | rfl | rfl <;> cases form <;> cases u <;> rfl

/-- In a width of at most 64 bits the comparison of the source is representability. -/
theorem magnitudeFits_iff {c : Constant} {target : FrontendCTargetInfo} {type : IntegerLiteralCandidate}
    (h : integerBits target type.rank ≤ 64) :
    magnitudeFits c.value (integerBits target type.rank) type.isSigned = true ↔ c.Fits target type := by
  rw [Constant.Fits, magnitudeFits]
  generalize integerBits target type.rank = bits at h ⊢
  rcases Nat.eq_zero_or_pos bits with rfl | hpos
  · simp
  have hpow : ∀ n : Nat, c.value ≤ 2 ^ n - 1 ↔ c.value < 2 ^ n := fun n => by
    have := Nat.two_pow_pos n
    omega
  have hrange : ¬(bits = 0 ∨ bits > 64) := by omega
  simp only [if_neg hrange, hpos, true_and]
  cases type.isSigned <;> by_cases h64 : bits = 64 <;> simp [h64, hpow] <;> omega

/-- The pattern is the one word that is congruent to the magnitude. -/
theorem signedBitPattern_iff {magnitude : Nat} (h : magnitude < 2 ^ 64) {value : Int} :
    value = signedBitPattern magnitude ↔
      value ≡ magnitude [ZMOD 2 ^ 64] ∧ -2 ^ 63 ≤ value ∧ value < 2 ^ 63 := by
  rw [signedBitPattern, Int.ModEq]
  split <;> omega

/-- For widths of at most 64 bits, `ParseIntegerLiteral` accepts exactly the integer constants whose value fits one of
the types that the standard lists for them, with the first such type and the value modulo `2 ^ 64`. -/
theorem parseIntegerLiteral_eq_some_iff {target : FrontendCTargetInfo} (h : ∀ rank, integerBits target rank ≤ 64)
    (text : CString) (value : Int) (type : FrontendCType) :
    parseIntegerLiteral text target = some (value, type) ↔
      ∃ (c : Constant) (t : IntegerLiteralCandidate), c.Spelled text.bytes ∧ c.HasType target t ∧
        type = { integerRank := t.rank, isSigned := t.isSigned } ∧
        value ≡ c.value [ZMOD 2 ^ 64] ∧ -2 ^ 63 ≤ value ∧ value < 2 ^ 63 := by
  have hword : ∀ {c : Constant} {t : IntegerLiteralCandidate}, c.Fits target t → c.value < 2 ^ 64 := by
    intro c t hfits
    refine lt_of_lt_of_le hfits.2 (Nat.pow_le_pow_right (by decide) ?_)
    have := h t.rank
    split <;> omega
  simp only [parseIntegerLiteral, Option.bind_eq_bind, Option.bind_eq_some_iff, Option.some.injEq,
    parseIntegerLiteralParts_eq_some_iff, Prod.mk.injEq]
  constructor
  · rintro ⟨_, ⟨c, hspelled, hc, rfl⟩, t, hfind, hvalue, rfl⟩
    have hspelled' := hspelled
    obtain ⟨numeral, suffix, -, -, hs⟩ := hspelled'
    rw [listIntegerCandidates_eq c hs, find?_eq_some_iff_append] at hfind
    obtain ⟨hfits, before, after, htypes, hbefore⟩ := hfind
    refine ⟨c, t, hspelled, ⟨before, after, htypes, (magnitudeFits_iff (h t.rank)).mp hfits, fun s hs hfs => ?_⟩, rfl,
      (signedBitPattern_iff hc).mp hvalue.symm⟩
    have hnot := hbefore s hs
    rw [(magnitudeFits_iff (h s.rank)).mpr hfs] at hnot
    cases hnot
  · rintro ⟨c, t, hspelled, ⟨before, after, htypes, hfits, hbefore⟩, rfl, hvalue⟩
    have hspelled' := hspelled
    obtain ⟨numeral, suffix, -, -, hs⟩ := hspelled'
    refine ⟨_, ⟨c, hspelled, hword hfits, rfl⟩, t, ?_, ((signedBitPattern_iff (hword hfits)).mpr hvalue).symm, rfl⟩
    rw [listIntegerCandidates_eq c hs, find?_eq_some_iff_append]
    refine ⟨(magnitudeFits_iff (h t.rank)).mpr hfits, before, after, htypes, fun s hs => ?_⟩
    have hnot := mt (magnitudeFits_iff (h s.rank)).mp (hbefore s hs)
    simpa using hnot

/-- `0xFFFFFFFFu` for a target with an `int` of 32 bits is an `unsigned int`. -/
theorem parseIntegerLiteral_ffffffff :
    ∃ (c : Constant) (t : IntegerLiteralCandidate),
      c.Spelled [48, 120, 70, 70, 70, 70, 70, 70, 70, 70, 117] ∧ c.HasType {} t ∧
      ({ integerRank := .int, isSigned := false } : FrontendCType) =
        { integerRank := t.rank, isSigned := t.isSigned } ∧
      (4294967295 : Int) ≡ c.value [ZMOD 2 ^ 64] ∧ -2 ^ 63 ≤ (4294967295 : Int) ∧ (4294967295 : Int) < 2 ^ 63 :=
  (parseIntegerLiteral_eq_some_iff (by rintro (_ | _) <;> decide)
    ⟨[48, 120, 70, 70, 70, 70, 70, 70, 70, 70, 117], by decide⟩ 4294967295 _).mp (by decide)

end Unisym.Lango.FrontendC
