/-
# `ChrHex` — decimal and hexadecimal strings

`ChrDecToHex` divides a copy of the number by 16 once for each of its decimal
digits and puts the remainders over them, the last first; `ChrHexToDec` adds the
digits times powers of 16.  Both do all their arithmetic on decimal strings.

After `n` divisions the remainders are the last `n` hexadecimal digits
(`hexLoop_spec`), and after `i` digits the sum is the number with the others
replaced by zeros (`decLoop_spec`).

`hex_round_trip`: each inverts the other as long as the buffers of the calls fit
in `malc_limit`.
-/
import Unisym.Text.ChrDivSpec

namespace Unisym.Text

open Digits List

/-! ## `ChrDecToHex` -/

/-- `diver` before a division. -/
def diver : (signsym : Bool) → Cells
  | true => [some 43, some 49, some 54, some 0]
  | false => [some 49, some 54, some 0, none]

/-- `"ABCDEF"` -/
def hexLetters : Chars := [65, 66, 67, 68, 69, 70, 0]

/-- `while (declen)`: `p` is divided, and the remainder goes to `dec[declen - 1]`, behind
the sign. -/
def hexLoop (signsym : Bool) (limit addrP addrD sign : Nat) : (declen : Nat) → Cells → Cells →
    Option Cells
  | 0, dec, _ => some dec
  | declen + 1, dec, p =>
      match chrDiv signsym limit addrP addrD p (diver signsym) with
      | none => none
      | some d =>
          match cellAt d.b (1 + signsym.toNat) with
          | none => none
          | some c =>
              match (if c ≠ 0 then charAt hexLetters ((c.toNat : Int) - 48)
                else cellAt d.b signsym.toNat) with
              | none => none
              | some digit =>
                  (put dec (sign + declen) digit).bind fun dec =>
                    hexLoop signsym limit addrP addrD sign declen dec d.a

/-- `ChrDecToHex`; `addrP` and `addrD` are the addresses of `p` and `diver`. -/
def chrDecToHex (signsym : Bool) (limit addrP addrD : Nat) (dec : Cells) : Option Result :=
  match cellAt dec 0 with
  | none => none
  | some c =>
      let sign := if signsym ∧ (c = 45 ∨ c = 43) then 1 else 0
      match str (dec.drop sign) with
      | none => none
      | some ds =>
          match countBytes ds with
          | none => none
          | some declen =>
              if declen + 2 > limit then some .null
              else
                let p := if signsym then some 43 :: ds.map some else ds.map some ++ [none]
                match hexLoop signsym limit addrP addrD sign declen dec p with
                | none => none
                | some dec =>
                    match chrCpz (dec.drop sign) with
                    | none => none
                    | some q =>
                        let dec := dec.take sign ++ q
                        if signsym then
                          if sign = 0 then none
                          else (put dec (sign - 1) (if c = 45 then 45 else 43)).map .string
                        else some (.string dec)

/-! ## `ChrHexToDec` -/

/-- `ChrMul` of strings on the heap, which may be null pointers. -/
def mulHeap (signsym : Bool) (limit : Nat) : Result → Result → Option Result
  | .string a, .string b =>
      match str a, str b with
      | some a, some b => (chrMul signsym limit a b).map (·.1)
      | _, _ => none
  | _, _ => some .null

/-- `ChrAdd` of strings on the heap. -/
def addHeap (signsym : Bool) (limit : Nat) : Result → Result → Option Result
  | .string a, .string b =>
      match str a, str b with
      | some a, some b => chrAdd signsym limit a b
      | _, _ => none
  | _, _ => some .null

def strHeap (cs : Chars) : Result := .string (cs.map some)

/-- The loop of `ChrInsPow`. -/
def insPow (signsym : Bool) (limit : Nat) (base : Chars) : (times : Nat) → Result → Option Result
  | 0, sum => some sum
  | times + 1, sum =>
      (mulHeap signsym limit sum (strHeap base)).bind (insPow signsym limit base times)

def chrInsPow (signsym : Bool) (limit : Nat) (base : Chars) (times : Nat) : Option Result :=
  insPow signsym limit base times (strHeap (if signsym then [43, 49, 0] else [49, 0]))

/-- `ttemp`, with the value of the digit `c`. -/
def hexTemp (signsym : Bool) (c : UInt8) : Chars :=
  let digits :=
    if c ≤ 57 ∧ c ≥ 48 then [48, 48 + (c - 48), 0]
    else [49, 48 + (c - (if c ≥ 97 then 97 else 65)), 0]
  if signsym then 43 :: digits else digits

/-- The loop of `ChrHexToDec`, `n` rounds before its end. -/
def decLoop (signsym : Bool) (limit : Nat) (hex : Chars) (hexlen : Nat) : (n i : Nat) → Result →
    Option Result
  | 0, _, sum => some sum
  | n + 1, i, sum =>
      match charAt hex i,
          chrInsPow signsym limit (if signsym then [43, 49, 54, 0] else [49, 54, 0])
            (hexlen - i - 1) with
      | some c, some ttemp2 =>
          match mulHeap signsym limit (strHeap (hexTemp signsym c)) ttemp2 with
          | none => none
          | some ttemp =>
              (addHeap signsym limit sum ttemp).bind (decLoop signsym limit hex hexlen n (i + 1))
      | _, _ => none

def chrHexToDec (signsym : Bool) (limit : Nat) (hex : Chars) : Option Result :=
  match hex.head? with
  | none => none
  | some c =>
      let sign := decide (c = 45)
      let hex := if c = 45 ∨ c = 43 then hex.tail else hex
      match countBytes hex with
      | none => none
      | some hexlen =>
          match decLoop signsym limit hex hexlen hexlen 0
              (strHeap (if signsym then [if sign then 45 else 43, 48, 0] else [48, 0])) with
          | none => none
          | some sum =>
              if sign && signsym then
                match sum with
                | .null => none
                | .string q =>
                    match cellAt q 0 with
                    | none => none
                    | some c => if c = 43 then (put q 0 45).map .string else some (.string q)
              else some sum

/-! ## Hexadecimal numbers -/

/-- A hexadecimal digit, in either case. -/
def isHex (c : UInt8) : Bool :=
  decide (48 ≤ c ∧ c ≤ 57 ∨ 65 ≤ c ∧ c ≤ 70 ∨ 97 ≤ c ∧ c ≤ 102)

/-- The number of a digit. -/
def hexOrd (c : UInt8) : Nat :=
  if c ≤ 57 then c.toNat - 48 else if c ≤ 70 then c.toNat - 55 else c.toNat - 87

/-- The byte of a digit, upper case. -/
def hexChar (d : Nat) : UInt8 := UInt8.ofNat (if d < 10 then 48 + d else 55 + d)

/-- A canonical hexadecimal operand. -/
structure SignedHex where
  minus : Bool
  chars : List UInt8
  hex : ∀ c ∈ chars, isHex c = true
  canonical : Canonical (chars.map hexOrd)

/-- The bytes of an operand, with the NUL. -/
def SignedHex.operand (signsym : Bool) (h : SignedHex) : Chars :=
  signOf signsym h.minus ++ (h.chars ++ [0])

/-- The magnitude of an operand. -/
def SignedHex.magnitude (h : SignedHex) : Nat := value 16 (h.chars.map hexOrd)

/-- The number an operand denotes. -/
def SignedHex.toInt (h : SignedHex) : Int := if h.minus then -(h.magnitude : Int) else h.magnitude

theorem hex_digit_char : ∀ c : UInt8, isHex c = true → hexOrd c < 16 ∧ c ≠ 0 ∧ c ≠ 43 ∧ c ≠ 45 ∧
    (if c ≤ 57 ∧ c ≥ 48 then [48, 48 + (c - 48), 0]
      else [49, 48 + (c - (if c ≥ 97 then 97 else 65)), 0]) =
        digitChars [hexOrd c / 10, hexOrd c % 10] := by
  intro c
  have hall : ∀ n < 256, isHex (UInt8.ofNat n) = true → hexOrd (UInt8.ofNat n) < 16 ∧
      UInt8.ofNat n ≠ 0 ∧ UInt8.ofNat n ≠ 43 ∧ UInt8.ofNat n ≠ 45 ∧
      (if UInt8.ofNat n ≤ 57 ∧ UInt8.ofNat n ≥ 48 then [48, 48 + (UInt8.ofNat n - 48), 0]
        else [49, 48 + (UInt8.ofNat n - (if UInt8.ofNat n ≥ 97 then 97 else 65)), 0]) =
          digitChars [hexOrd (UInt8.ofNat n) / 10, hexOrd (UInt8.ofNat n) % 10] := by
    decide +kernel
  have h := hall c.toNat c.toNat_lt
  rwa [UInt8.ofNat_toNat] at h

theorem hexChar_spec : ∀ d < 16, isHex (hexChar d) = true ∧ hexOrd (hexChar d) = d ∧
    (hexChar d = 48 ↔ d = 0) := by
  decide

theorem charAt_hexLetters : ∀ d < 6,
    charAt hexLetters (((digitChar d).toNat : Int) - 48) = some (hexChar (10 + d)) := by
  decide

theorem hexChar_digit : ∀ d < 10, hexChar d = digitChar d := by
  decide

/-! ## The remainders -/

/-- The base. -/
def sixteen : Signed where
  minus := false
  digits := [1, 6]
  decimal := decimal_cons.mpr ⟨by decide, decimal_cons.mpr ⟨by decide, Decimal.nil⟩⟩
  canonical := ⟨by decide, fun h => by cases h⟩

theorem remainder_digits {rs : List Nat} (hrs : Decimal rs) (hcanonical : Canonical rs)
    (hlt : value 10 rs < 16) :
    rs = [value 10 rs] ∨ ∃ d < 6, rs = [1, d] ∧ value 10 rs = 10 + d := by
  match rs with
  | [] => exact absurd rfl hcanonical.1
  | [d] => exact .inl (by rw [value_singleton])
  | [c, d] =>
    have hc : c ≠ 0 := fun h => by
      have hone := hcanonical.2 (by rw [h]; rfl)
      cases hone
    rw [value_cons, value_singleton, length_singleton, Nat.pow_one] at hlt ⊢
    have hone : c = 1 := by omega
    subst hone
    exact .inr ⟨d, by omega, rfl, by omega⟩
  | c :: d :: e :: es =>
    have hc : c ≠ 0 := fun h => by
      have hone := hcanonical.2 (by rw [h]; rfl)
      cases hone
    have hle : 10 ^ (d :: e :: es).length ≤ value 10 (c :: d :: e :: es) := pow_le_value hc
    have hpow : 10 ^ 2 ≤ 10 ^ (d :: e :: es).length :=
      Nat.pow_le_pow_right (by decide) (by
        rw [length_cons, length_cons]
        omega)
    omega

/-- The digit a round of `ChrDecToHex` reads off `diver`. -/
theorem remainder_char (signsym : Bool) {rs : List Nat} (rest : Cells) (hrs : Decimal rs)
    (hcanonical : Canonical rs) (hlt : value 10 rs < 16) :
    ∃ c, cellAt ((signOf signsym false).map some ++ (digitCells rs ++ some 0 :: rest))
        (1 + signsym.toNat) = some c ∧
      (if c ≠ 0 then charAt hexLetters ((c.toNat : Int) - 48)
        else cellAt ((signOf signsym false).map some ++ (digitCells rs ++ some 0 :: rest))
          signsym.toNat) = some (hexChar (value 10 rs)) := by
  rcases remainder_digits hrs hcanonical hlt with hone | ⟨d, hd, htwo, hval⟩
  · generalize value 10 rs = r at hone hlt
    subst hone
    have hr := (decimal_cons.mp hrs).1
    refine ⟨0, by cases signsym <;> rfl, ?_⟩
    rw [if_neg (by decide), hexChar_digit r hr]
    cases signsym <;> rfl
  · rw [hval]
    subst htwo
    refine ⟨digitChar d, by cases signsym <;> rfl, ?_⟩
    rw [if_pos (digitChar_ne_zero d (by omega)), charAt_hexLetters d hd]

variable {x : Signed} {limit addrP addrD : Nat} {hs : List Nat} {signsym : Bool}

theorem length_le_of_magnitude {y : Signed} (h : x.magnitude ≤ y.magnitude) :
    x.digits.length ≤ y.digits.length := by
  by_contra hlt
  have hgt := Signed.magnitude_lt_of_length (Nat.lt_of_not_le hlt)
  omega

/-- Hexadecimal digits that were written. -/
def hexCells (ds : List Nat) : Cells := (ds.map hexChar).map some

theorem chrDiv_sixteen (signsym : Bool) (limit : Nat) (rest : Cells)
    (hplus : x.minus = false) (hlimit : x.digits.length + 1 ≤ limit)
    (hint : x.digits.length < 2 ^ 31)
    (hapart : addrP + (x.digits.length + 2) ≤ addrD ∨ addrD + 4 ≤ addrP) :
    ∃ (q : Signed) (rs : List Nat) (ra rb : Cells),
      chrDiv signsym limit addrP addrD ((x.operand signsym).map some ++ rest) (diver signsym) =
        some ⟨(q.operand signsym).map some ++ ra,
          (signOf signsym false).map some ++ (digitCells rs ++ some 0 :: rb), false⟩ ∧
      q.minus = false ∧ Decimal rs ∧ Canonical rs ∧ value 10 rs < 16 ∧
      q.magnitude * 16 + value 10 rs = x.magnitude := by
  have hdiver : ∃ rb, diver signsym = (sixteen.operand signsym).map some ++ rb := by
    cases signsym
    · exact ⟨[none], rfl⟩
    · exact ⟨[], rfl⟩
  obtain ⟨rb, hdiver⟩ := hdiver
  obtain ⟨hfits, -⟩ := divDigits_spec signsym limit addrP addrD (xor x.minus sixteen.minus) x.minus x
    sixteen rest rb (by decide) hapart
  obtain ⟨qs, rs, ra', rb', hr, hqs, hqcan, hrs, hrcan, -, -, hsum, hlt⟩ := hfits hint (.inr hlimit)
  rw [hplus] at hr
  refine ⟨⟨false, qs, hqs, hqcan⟩, rs, ra', rb', ?_, rfl, hrs, hrcan, hlt, hsum⟩
  rw [hdiver, chrDiv_signs, hplus, hr, operand_cells]
  rfl

/-- After `n` divisions the remainders are the last `n` hexadecimal digits. -/
theorem hexLoop_spec (signsym : Bool) (limit : Nat) {size : Nat} (hlimit : size + 1 ≤ limit)
    (hint : size < 2 ^ 31) (hapart : addrP + (size + 2) ≤ addrD ∨ addrD + 4 ≤ addrP)
    (pre post : Cells) :
    ∀ (n : Nat) (x : Signed) (gap rest : Cells) (ws : List Nat), gap.length = n →
    x.minus = false → x.digits.length ≤ size →
    ∃ hs k, hexLoop signsym limit addrP addrD pre.length n (pre ++ (gap ++ (hexCells ws ++ post)))
        ((x.operand signsym).map some ++ rest) = some (pre ++ (hexCells (hs ++ ws) ++ post)) ∧
      hs.length = n ∧ (∀ d ∈ hs, d < 16) ∧ x.magnitude = k * 16 ^ n + value 16 hs := by
  intro n
  induction n with
  | zero =>
    intro x gap rest ws hgap _ _
    rw [length_eq_zero_iff.mp hgap]
    exact ⟨[], x.magnitude, rfl, rfl, fun _ h => absurd h not_mem_nil,
      by rw [value_nil, Nat.pow_zero, Nat.mul_one, Nat.add_zero]⟩
  | succ n ih =>
    intro x gap rest ws hgap hplus hsize
    obtain ⟨q, rs, ra, rb, hdiv, hqplus, hrs, hrcan, hlt, hsum⟩ := chrDiv_sixteen signsym limit rest
      hplus (by omega) (by omega)
      (hapart.imp_left fun h => Nat.le_trans (by omega) h)
    obtain ⟨c, hread, hdigit⟩ := remainder_char signsym rb hrs hrcan hlt
    obtain ⟨gap, y, rfl⟩ := (eq_nil_or_concat' gap).resolve_left
      (fun h => by rw [h] at hgap; cases hgap)
    rw [length_append, length_singleton] at hgap
    have hgap' : gap.length = n := Nat.succ.inj hgap
    have hput := put_append (pre ++ gap) y (hexCells ws ++ post) (hexChar (value 10 rs))
    rw [length_append, hgap', append_assoc, append_assoc] at hput
    have hqle : q.magnitude ≤ x.magnitude := by omega
    obtain ⟨hs, k, hrun, hlen, hhs, hval⟩ := ih q gap ra (value 10 rs :: ws) hgap' hqplus
      (Nat.le_trans (length_le_of_magnitude hqle) hsize)
    rw [hexLoop, hdiv]
    dsimp only
    rw [hread]
    dsimp only
    rw [hdigit, append_assoc gap]
    dsimp only
    rw [singleton_append, hput, Option.bind_some]
    refine ⟨hs ++ [value 10 rs], k, ?_, ?_, ?_, ?_⟩
    · rw [append_assoc, singleton_append]
      exact hrun
    · rw [length_append, hlen]
      rfl
    · intro d hd
      rcases mem_append.mp hd with hd | hd
      · exact hhs d hd
      · rw [mem_singleton.mp hd]
        exact hlt
    · rw [← hsum, hval, value_concat, Nat.pow_succ]
      ring

theorem chrCpz_hex (post : Cells) (hhs : ∀ d ∈ hs, d < 16) (hne : hs ≠ []) :
    ∃ rest, chrCpz (hexCells hs ++ some 0 :: post) = some (hexCells (strip hs) ++ some 0 :: rest) := by
  have hbyte : ∀ c ∈ hs.map hexChar, c ≠ 0 ∧ c ≠ 43 ∧ c ≠ 45 := by
    intro c hc
    obtain ⟨d, hd, rfl⟩ := mem_map.mp hc
    obtain ⟨-, h0, hplus, hminus, -⟩ := hex_digit_char _ (hexChar_spec d (hhs d hd)).1
    exact ⟨h0, hplus, hminus⟩
  have hne' : hs.map hexChar ≠ [] := fun h => hne (map_eq_nil_iff.mp h)
  have hheaded : Headed [] (hs.map hexChar) := by
    refine .inl ⟨rfl, fun h => ?_, fun h => ?_⟩
    · exact (hbyte 43 (mem_of_mem_head? h)).2.1 rfl
    · exact (hbyte 45 (mem_of_mem_head? h)).2.2 rfl
  obtain ⟨rest, hcpz, -⟩ := chrCpz_bytes post hheaded (fun h => (hbyte 0 h).1 rfl) hne'
  rw [stripZeros_map fun d hd => (hexChar_spec d (hhs d hd)).2.2] at hcpz
  exact ⟨rest, hcpz⟩

theorem hexOrd_map (hhs : ∀ d ∈ hs, d < 16) :
    (hs.map hexChar).map hexOrd = hs := by
  rw [map_map]
  refine (map_congr_left fun d hd => ?_).trans (map_id hs)
  exact (hexChar_spec d (hhs d hd)).2.1

/-- The number of hexadecimal digits, the first of which is not a superfluous zero. -/
def signedHex (minus : Bool) (hs : List Nat) (hhs : ∀ d ∈ hs, d < 16) (hne : hs ≠ []) : SignedHex where
  minus := minus
  chars := (strip hs).map hexChar
  hex := by
    intro c hc
    obtain ⟨d, hd, rfl⟩ := mem_map.mp hc
    exact (hexChar_spec d (hhs d (mem_strip hd))).1
  canonical := by
    rw [hexOrd_map fun d hd => hhs d (mem_strip hd)]
    exact strip_canonical hne

theorem signedHex_magnitude (minus : Bool) (hhs : ∀ d ∈ hs, d < 16) (hne : hs ≠ []) :
    (signedHex minus hs hhs hne).magnitude = value 16 hs := by
  have hchars : (signedHex minus hs hhs hne).chars.map hexOrd = strip hs :=
    hexOrd_map fun d hd => hhs d (mem_strip hd)
  rw [SignedHex.magnitude, hchars, strip_value]

/-- The first byte of an operand, and its digits behind the sign. -/
theorem operand_parts (ra : Cells)
    (hsign : x.minus = true → signsym = true) :
    ∃ c, cellAt ((x.operand signsym).map some ++ ra) 0 = some c ∧
      (if signsym = true ∧ (c = 45 ∨ c = 43) then 1 else 0) = signsym.toNat ∧
      (signsym = true → (if c = 45 then 45 else 43) = signChar x.minus) ∧
      str (((x.operand signsym).map some ++ ra).drop signsym.toNat) = some (digitChars x.digits) := by
  have hdrop : ((x.operand signsym).map some ++ ra).drop signsym.toNat =
      digitCells x.digits ++ some 0 :: ra := by
    rw [operand_cells, ← signOf_length signsym x.minus, drop_left]
  rw [hdrop, str_digits ra x.decimal]
  cases signsym with
  | true =>
    refine ⟨signChar x.minus, rfl, ?_, fun _ => ?_, rfl⟩
    · cases x.minus <;> rfl
    · cases x.minus <;> rfl
  | false =>
    obtain ⟨d, ds, hd⟩ := exists_cons_of_ne_nil x.canonical.1
    refine ⟨digitChar d, ?_, if_neg fun h => absurd h.1 (by decide), fun h => absurd h (by decide),
      rfl⟩
    rw [operand_cells, hd]
    rfl

/-- The string and its NUL, seen as what `ChrDecToHex` copies to `p`. -/
theorem copy_operand (signsym : Bool) (x : Signed) :
    ∃ rest, (if signsym = true then some 43 :: (digitChars x.digits).map some
      else (digitChars x.digits).map some ++ [none]) =
        (({ x with minus := false } : Signed).operand signsym).map some ++ rest := by
  cases signsym with
  | true => exact ⟨[], (append_nil _).symm⟩
  | false => exact ⟨[none], rfl⟩

/-- `ChrDecToHex` gives the same number in hexadecimal digits, in the buffer of the
decimal ones. -/
theorem chrDecToHex_spec (ra : Cells)
    (hsign : x.minus = true → signsym = true) (hlimit : x.digits.length + 2 ≤ limit)
    (hint : x.digits.length < 2 ^ 31)
    (hapart : addrP + (x.digits.length + 2) ≤ addrD ∨ addrD + 4 ≤ addrP) :
    ∃ (h : SignedHex) (rest : Cells),
      chrDecToHex signsym limit addrP addrD ((x.operand signsym).map some ++ ra) =
        some (.string ((h.operand signsym).map some ++ rest)) ∧
      h.minus = x.minus ∧ h.magnitude = x.magnitude := by
  have hpos := length_pos_of_ne_nil x.canonical.1
  have hlenA := signOf_length signsym x.minus
  obtain ⟨c, hread, hplace, hchar, hstr⟩ := operand_parts ra hsign
  obtain ⟨rest, hcopy⟩ := copy_operand signsym x
  obtain ⟨hs, k, hloop, hlen, hhs, hval⟩ := hexLoop_spec signsym limit (by omega) hint
    hapart ((signOf signsym x.minus).map some) (some 0 :: ra) x.digits.length
    { x with minus := false } (digitCells x.digits) rest [] (digitCells_length _) rfl (Nat.le_refl _)
  have hne : hs ≠ [] := ne_nil_of_length_pos (by omega)
  obtain ⟨rest', hcpz⟩ := chrCpz_hex ra hhs hne
  -- nothing is left of the number
  have hmag : value 16 hs = x.magnitude := by
    have hlt : x.magnitude < 16 ^ x.digits.length :=
      Nat.lt_of_lt_of_le (value_lt (by decide) x.decimal) (Nat.pow_le_pow_left (by decide) _)
    have hval' : x.magnitude = k * 16 ^ x.digits.length + value 16 hs := hval
    have hk : k = 0 := by
      by_contra hne
      have hle := Nat.le_mul_of_pos_left (16 ^ x.digits.length) (Nat.pos_of_ne_zero hne)
      omega
    rw [hval', hk, Nat.zero_mul, Nat.zero_add]
  refine ⟨signedHex x.minus hs hhs hne, rest', ?_, rfl, (signedHex_magnitude x.minus hhs hne).trans hmag⟩
  have hresult : ((signedHex x.minus hs hhs hne).operand signsym).map some ++ rest' =
      (signOf signsym x.minus).map some ++ (hexCells (strip hs) ++ some 0 :: rest') := by
    rw [SignedHex.operand, map_append, map_append, append_assoc, append_assoc]
    rfl
  rw [hlenA, append_nil] at hloop
  unfold chrDecToHex
  rw [hread]
  dsimp only
  rw [hplace, hstr]
  dsimp only
  rw [countBytes_digitChars x.decimal]
  dsimp only
  rw [if_neg (by omega), hcopy, operand_cells signsym x]
  have hloop' : hexLoop signsym limit addrP addrD signsym.toNat x.digits.length
      ((signOf signsym x.minus).map some ++ (digitCells x.digits ++ some 0 :: ra))
      ((({ x with minus := false } : Signed).operand signsym).map some ++ rest) =
        some ((signOf signsym x.minus).map some ++ (hexCells hs ++ some 0 :: ra)) := hloop
  rw [hloop']
  dsimp only
  have hdrop' : ((signOf signsym x.minus).map some ++ (hexCells hs ++ some 0 :: ra)).drop
      signsym.toNat = hexCells hs ++ some 0 :: ra := by rw [← hlenA, drop_left]
  have htake : ((signOf signsym x.minus).map some ++ (hexCells hs ++ some 0 :: ra)).take
      signsym.toNat = (signOf signsym x.minus).map some := by rw [← hlenA, take_left]
  rw [hdrop', htake, hcpz]
  dsimp only
  rw [hresult]
  cases signsym with
  | true =>
    rw [if_pos rfl, if_neg (by decide), hchar rfl]
    rfl
  | false => rfl

theorem chrDecToHex_long (addrP addrD : Nat) (ra : Cells)
    (hsign : x.minus = true → signsym = true) (hlong : limit < x.digits.length + 2) :
    chrDecToHex signsym limit addrP addrD ((x.operand signsym).map some ++ ra) = some .null := by
  obtain ⟨c, hread, hplace, -, hstr⟩ := operand_parts ra hsign
  unfold chrDecToHex
  rw [hread]
  dsimp only
  rw [hplace, hstr]
  dsimp only
  rw [countBytes_digitChars x.decimal]
  exact if_pos hlong

/-! ## The sum -/

/-- How many decimal digits a number has. -/
def decLength (n : Nat) : Nat := Nat.log 10 n + 1

theorem length_le_decLength {z : Signed} {n : Nat} (h : z.magnitude ≤ n) :
    z.digits.length ≤ decLength n := by
  by_cases hzero : z.digits = [0]
  · rw [hzero, length_singleton, decLength]
    omega
  · have hle : 10 ^ z.digits.length ≤ z.magnitude * 10 := z.canonical.pow_le hzero
    have hlt := Nat.lt_pow_succ_log_self (b := 10) (by decide) n
    have hpow : 10 ^ z.digits.length < 10 ^ (Nat.log 10 n + 1 + 1) := by
      rw [Nat.pow_succ _ (Nat.log 10 n + 1)]
      omega
    have hlen := (Nat.pow_lt_pow_iff_right (a := 10) (by decide)).mp hpow
    rw [decLength]
    omega

theorem str_operand (signsym minus : Bool) {ds : List Nat} (rest : Cells) (hds : Decimal ds) :
    str ((signOf signsym minus ++ digitChars ds).map some ++ rest) =
      some (signOf signsym minus ++ digitChars ds) := by
  have hzero : 0 ∉ signOf signsym minus ++ ds.map digitChar := by
    intro h
    rcases mem_append.mp h with h | h
    · cases signsym with
      | true => exact signChar_ne_zero minus (mem_singleton.mp h).symm
      | false => exact absurd h not_mem_nil
    · exact zero_not_mem_digitChars hds h
  rw [digitChars, ← append_assoc, map_append, append_assoc]
  exact str_bytes rest hzero

theorem mulHeap_spec (signsym : Bool) (limit : Nat) {xs ys : List Nat} (ra rb : Cells)
    (hxs : Decimal xs) (hys : Decimal ys) (hx : xs ≠ []) (hy : ys ≠ [])
    (hfit : xs.length + ys.length + 1 + signsym.toNat ≤ min limit (2 ^ 31)) :
    ∃ r z, mulHeap signsym limit (.string ((signOf signsym false ++ digitChars xs).map some ++ ra))
        (.string ((signOf signsym false ++ digitChars ys).map some ++ rb)) = some r ∧
      r.IsOf signsym z ∧ z.minus = false ∧ z.magnitude = value 10 xs * value 10 ys := by
  obtain ⟨hlimit, hint⟩ := Nat.le_min.mp hfit
  obtain ⟨hfits, -⟩ := chrMul_digits signsym limit false false (fun h => absurd h (by decide))
    (fun h => absurd h (by decide)) hxs hys hx hy
  obtain ⟨r, z, low, hr, his, hminus, hmag, -⟩ := hfits hlimit (by omega) (by omega)
  refine ⟨r, z, ?_, his, hminus, hmag⟩
  rw [mulHeap, str_operand signsym false ra hxs, str_operand signsym false rb hys]
  dsimp only
  rw [hr]
  rfl

theorem addHeap_spec (limit : Nat) {y : Signed} {a b : Result}
    (ha : a.IsOf signsym x) (hb : b.IsOf signsym y) (hx : x.minus = true → signsym = true)
    (hy : y.minus = true → signsym = true)
    (hfit : max x.digits.length y.digits.length + 3 ≤ limit) :
    ∃ r z, addHeap signsym limit a b = some r ∧ r.IsOf signsym z ∧ z.toInt = x.toInt + y.toInt ∧
      (z.minus = true → signsym = true) := by
  obtain ⟨ra, rfl⟩ := ha
  obtain ⟨rb, rfl⟩ := hb
  rw [addHeap, Signed.operand, Signed.operand, str_operand signsym _ ra x.decimal,
    str_operand signsym _ rb y.decimal]
  dsimp only
  cases signsym with
  | true =>
    have hsize : addSize x y ≤ limit := by
      unfold addSize
      split <;> omega
    obtain ⟨r, z, hr, his, hint⟩ := (chrAdd_exact limit x y).1 hsize
    exact ⟨r, z, hr, his, hint, fun _ => rfl⟩
  | false =>
    have hplusX : x.minus = false := Bool.eq_false_iff.mpr fun h => absurd (hx h) (by decide)
    have hplusY : y.minus = false := Bool.eq_false_iff.mpr fun h => absurd (hy h) (by decide)
    obtain ⟨hfits, -⟩ := addMagnitudes_spec false limit false x.decimal y.decimal x.canonical.1
      y.canonical.1
    obtain ⟨r, z, hr, his, hminus, hmag⟩ := hfits hfit
    refine ⟨r, z, ?_, his, ?_, fun h => absurd (hminus.symm.trans h) (by decide)⟩
    · exact (chrAddFrom_digits false limit _ x y).trans hr
    · unfold Signed.toInt
      rw [hminus, hplusX, hplusY, hmag]
      exact Nat.cast_add _ _

theorem insPow_spec : ∀ (times : Nat) {x : Signed} {a : Result},
    a.IsOf signsym x → x.minus = false →
    decLength (x.magnitude * 16 ^ times) + 3 + signsym.toNat ≤ min limit (2 ^ 31) →
    ∃ r z, insPow signsym limit (sixteen.operand signsym) times a = some r ∧ r.IsOf signsym z ∧
      z.minus = false ∧ z.magnitude = x.magnitude * 16 ^ times := by
  intro times
  induction times with
  | zero =>
    intro x a ha hplus _
    exact ⟨a, x, rfl, ha, hplus, by rw [Nat.pow_zero, Nat.mul_one]⟩
  | succ times ih =>
    intro x a ha hplus hfit
    obtain ⟨ra, rfl⟩ := ha
    have hlen := length_le_decLength (z := x) (n := x.magnitude * 16 ^ (times + 1))
      (Nat.le_mul_of_pos_right _ (Nat.pow_pos (by decide)))
    have hsixteen : sixteen.digits.length = 2 := rfl
    obtain ⟨r, z, hr, his, hzplus, hmag⟩ := mulHeap_spec signsym limit ra []
      x.decimal sixteen.decimal x.canonical.1 sixteen.canonical.1 (by omega)
    have hmag' : z.magnitude * 16 ^ times = x.magnitude * 16 ^ (times + 1) := by
      have hsixteen : value 10 sixteen.digits = 16 := rfl
      rw [hmag, hsixteen, Nat.pow_succ, Signed.magnitude]
      ring
    obtain ⟨r', z', hr', his', hzplus', hmag''⟩ := ih his hzplus (by rw [hmag']; exact hfit)
    refine ⟨r', z', ?_, his', hzplus', hmag''.trans hmag'⟩
    rw [append_nil] at hr
    have hsign : sixteen.minus = false := rfl
    rw [insPow, Signed.operand, hplus, strHeap, Signed.operand, hsign, hr]
    exact hr'

theorem chrInsPow_spec (signsym : Bool) (limit times : Nat)
    (hfit : decLength (16 ^ times) + 3 + signsym.toNat ≤ min limit (2 ^ 31)) :
    ∃ r z, chrInsPow signsym limit (if signsym = true then [43, 49, 54, 0] else [49, 54, 0]) times =
        some r ∧ r.IsOf signsym z ∧ z.minus = false ∧ z.magnitude = 16 ^ times := by
  have hbase : (if signsym = true then [43, 49, 54, 0] else [49, 54, 0]) =
      sixteen.operand signsym := by cases signsym <;> rfl
  have hone : (if signsym = true then [43, 49, 0] else [49, 0]) = (ones 0).operand signsym := by
    cases signsym <;> rfl
  have hval : (ones 0).magnitude = 1 := rfl
  have hpow := insPow_spec times (x := ones 0)
    (a := strHeap ((ones 0).operand signsym)) ⟨[], by rw [append_nil]; rfl⟩ rfl
    (by rw [hval, Nat.one_mul]; exact hfit)
  rw [hval, Nat.one_mul] at hpow
  rw [chrInsPow, hbase, hone]
  exact hpow

theorem magnitude_of_toInt {z : Signed} {n : Nat} (h : z.toInt = n) : z.magnitude = n := by
  unfold Signed.toInt at h
  split at h <;> omega

/-- After the digits `done` the sum is the number with zeros for the digits `todo`. -/
theorem decLoop_spec (limit : Nat) {cs : List UInt8}
    (hcs : ∀ c ∈ cs, isHex c = true)
    (hpow : decLength (16 ^ (cs.length - 1)) + 3 + signsym.toNat ≤ min limit (2 ^ 31))
    (hsum : decLength (value 16 (cs.map hexOrd)) + 3 ≤ limit) :
    ∀ (todo done : List UInt8) (sum : Result) {x : Signed}, cs = done ++ todo →
    sum.IsOf signsym x → (x.minus = true → signsym = true) →
    x.toInt = (value 16 (done.map hexOrd) * 16 ^ todo.length : Nat) →
    ∃ r z, decLoop signsym limit (cs ++ [0]) cs.length todo.length done.length sum = some r ∧
      r.IsOf signsym z ∧ z.toInt = (value 16 (cs.map hexOrd) : Nat) ∧
      (z.minus = true → signsym = true) := by
  intro todo
  induction todo with
  | nil =>
    intro done sum x hsplit hx hsign hint
    rw [append_nil] at hsplit
    rw [length_nil, Nat.pow_zero, Nat.mul_one, ← hsplit] at hint
    exact ⟨sum, x, rfl, hx, hint, hsign⟩
  | cons c todo ih =>
    intro done sum x hsplit hx hsign hint
    have hc := hcs c (by rw [hsplit]; exact mem_append_cons_self)
    obtain ⟨hlt, -, -, -, htemp⟩ := hex_digit_char c hc
    have hread : charAt (cs ++ [0]) done.length = some c := by
      rw [hsplit, charAt, if_pos (Int.natCast_nonneg _), Int.toNat_natCast, append_assoc,
        getElem?_append_right (Nat.le_refl _), Nat.sub_self]
      rfl
    have hlen : cs.length = done.length + (todo.length + 1) := by
      rw [hsplit, length_append, length_cons]
    have hleft : cs.length - done.length - 1 = todo.length := by omega
    -- the power of this digit, the digit times it, and the sum with it
    have hpowle : 16 ^ todo.length ≤ 16 ^ (cs.length - 1) :=
      Nat.pow_le_pow_right (by decide) (by omega)
    have hlog : decLength (16 ^ todo.length) ≤ decLength (16 ^ (cs.length - 1)) :=
      Nat.succ_le_succ (Nat.log_mono_right hpowle)
    obtain ⟨p, w, hp, ⟨rb, hw⟩, hwplus, hwmag⟩ := chrInsPow_spec signsym limit
      todo.length (by omega)
    have hwlen := length_le_decLength (z := w) (Nat.le_of_eq hwmag)
    have hdec : Decimal [hexOrd c / 10, hexOrd c % 10] :=
      decimal_cons.mpr ⟨by omega, decimal_cons.mpr ⟨by omega, Decimal.nil⟩⟩
    obtain ⟨t, y, ht, hy, hyplus, hymag⟩ := mulHeap_spec signsym limit [] rb
      hdec w.decimal (cons_ne_nil _ _) w.canonical.1 (by
        rw [length_cons, length_singleton]
        omega)
    have hyval : y.magnitude = hexOrd c * 16 ^ todo.length := by
      have hdigits : value 10 [hexOrd c / 10, hexOrd c % 10] = hexOrd c := by
        rw [value_cons, value_singleton, length_singleton, Nat.pow_one]
        omega
      rw [hymag, hdigits, ← hwmag]
      rfl
    have htotal : value 16 (cs.map hexOrd) =
        value 16 (done.map hexOrd) * 16 ^ (todo.length + 1) + hexOrd c * 16 ^ todo.length +
          value 16 (todo.map hexOrd) := by
      rw [hsplit, map_append, value_append, map_cons, value_cons, length_cons,
        length_map]
      omega
    have hxlen : x.digits.length ≤ decLength (value 16 (cs.map hexOrd)) :=
      length_le_decLength (by rw [magnitude_of_toInt hint, length_cons]; omega)
    have hylen : y.digits.length ≤ decLength (value 16 (cs.map hexOrd)) :=
      length_le_decLength (by omega)
    obtain ⟨r, z, hr, hz, hzint, hzsign⟩ := addHeap_spec limit hx hy hsign
      (fun h => absurd (hyplus.symm.trans h) (by decide)) (by omega)
    have hyint : y.toInt = (hexOrd c * 16 ^ todo.length : Nat) := by
      rw [Signed.toInt, hyplus, hyval]
      rfl
    obtain ⟨r', z', hr', hz', hzint', hzsign'⟩ := ih (done ++ [c]) _ (by
      rw [hsplit, append_assoc, singleton_append]) hz hzsign (by
      rw [hzint, hint, hyint, ← Nat.cast_add, map_append, map_singleton, value_concat,
        length_cons, Nat.pow_succ]
      congr 1
      ring)
    rw [length_append, length_singleton] at hr'
    refine ⟨r', z', ?_, hz', hzint', hzsign'⟩
    have hheap : strHeap (hexTemp signsym c) = .string ((signOf signsym false ++
        digitChars [hexOrd c / 10, hexOrd c % 10]).map some ++ []) := by
      rw [hexTemp, htemp, append_nil]
      cases signsym <;> rfl
    rw [length_cons, decLoop, hread, hleft, hp]
    dsimp only
    rw [hheap, hw, Signed.operand, hwplus, ht]
    dsimp only
    rw [hr, Option.bind_some]
    exact hr'

/-- The bytes the calls of `ChrHexToDec` ask for at most. -/
def hexRoom (signsym : Bool) (magnitude : Nat) : Nat :=
  max (decLength (16 ^ Nat.log 16 magnitude) + 3 + signsym.toNat) (decLength magnitude + 3)

/-- The digits behind the first of a canonical number are its logarithm. -/
theorem SignedHex.log_magnitude (h : SignedHex) :
    Nat.log 16 h.magnitude = h.chars.length - 1 := by
  have hall : ∀ d ∈ h.chars.map hexOrd, d < 16 := by
    intro d hd
    obtain ⟨c, hc, rfl⟩ := mem_map.mp hd
    exact (hex_digit_char c (h.hex c hc)).1
  have hlt := value_lt (b := 16) (by decide) hall
  have hlen : (h.chars.map hexOrd).length = h.chars.length := length_map hexOrd
  by_cases hzero : h.chars.map hexOrd = [0]
  · rw [hzero, length_singleton] at hlen
    rw [SignedHex.magnitude, hzero, value_singleton, ← hlen]
    rfl
  · have hle : 16 ^ _ ≤ value 16 (h.chars.map hexOrd) * 16 := h.canonical.pow_le hzero
    have hpos := length_pos_of_ne_nil h.canonical.1
    rw [hlen] at hlt hle hpos
    obtain ⟨n, hn⟩ := Nat.exists_eq_add_of_lt hpos
    rw [hn, Nat.zero_add] at hlt hle ⊢
    rw [Nat.pow_succ] at hle
    exact Nat.log_eq_of_pow_le_of_lt_pow (Nat.le_of_mul_le_mul_right hle (by decide)) hlt

/-- `ChrHexToDec` gives the same number in decimal digits. -/
theorem chrHexToDec_spec (h : SignedHex)
    (hsign : h.minus = true → signsym = true)
    (hfit : hexRoom signsym h.magnitude ≤ min limit (2 ^ 31)) :
    ∃ r z, chrHexToDec signsym limit (h.operand signsym) = some r ∧ r.IsOf signsym z ∧
      z.toInt = h.toInt ∧ (z.minus = true → signsym = true) := by
  rw [hexRoom, h.log_magnitude] at hfit
  have hbytes : ∀ c ∈ h.chars, c ≠ 0 ∧ c ≠ 43 ∧ c ≠ 45 := by
    intro c hc
    obtain ⟨-, h0, hplus, hminus, -⟩ := hex_digit_char c (h.hex c hc)
    exact ⟨h0, hplus, hminus⟩
  have hcount : ∀ {cs : List UInt8}, (∀ c ∈ cs, c ≠ 0) → countBytes (cs ++ [0]) = some cs.length := by
    intro cs hcs
    induction cs with
    | nil => rfl
    | cons c cs ih =>
      rw [cons_append, countBytes, if_neg (hcs c mem_cons_self),
        ih fun e he => hcs e (mem_cons_of_mem c he)]
      rfl
  -- the sign is taken off
  obtain ⟨c, hc, hminus, hrest⟩ : ∃ c, (h.operand signsym).head? = some c ∧
      decide (c = 45) = h.minus ∧
      (if c = 45 ∨ c = 43 then (h.operand signsym).tail else h.operand signsym) = h.chars ++ [0] := by
    cases signsym with
    | true =>
      refine ⟨signChar h.minus, rfl, ?_, ?_⟩
      · cases h.minus <;> rfl
      · rw [if_pos (signChar_cases h.minus).symm]
        rfl
    | false =>
      have hplus : h.minus = false := Bool.eq_false_iff.mpr fun hm => absurd (hsign hm) (by decide)
      obtain ⟨c, cs, hcs⟩ := exists_cons_of_ne_nil
        (fun hnil => h.canonical.1 (map_eq_nil_iff.mpr hnil))
      obtain ⟨-, hc43, hc45⟩ := hbytes c (by rw [hcs]; exact mem_cons_self)
      refine ⟨c, ?_, ?_, ?_⟩
      · rw [SignedHex.operand, hcs]
        rfl
      · rw [hplus, decide_eq_false hc45]
      · rw [if_neg (not_or.mpr ⟨hc45, hc43⟩)]
        rfl
  have hstart : strHeap (if signsym = true then [if h.minus = true then 45 else 43, 48, 0]
      else [48, 0]) = strHeap (signOf signsym h.minus ++ digitChars [0]) := by
    cases signsym <;> rfl
  have hzero : (⟨h.minus, [0], decimal_cons.mpr ⟨by decide, Decimal.nil⟩,
      by decide, fun _ => rfl⟩ : Signed).toInt = 0 := by
    unfold Signed.toInt
    cases h.minus <;> rfl
  obtain ⟨r, z, hr, his, hint, hzsign⟩ := decLoop_spec limit h.hex
    (by omega) (by unfold SignedHex.magnitude at hfit; omega) h.chars []
    (strHeap (signOf signsym h.minus ++ digitChars [0]))
    (x := ⟨h.minus, [0], decimal_cons.mpr ⟨by decide, Decimal.nil⟩, by decide, fun _ => rfl⟩)
    rfl ⟨[], by rw [append_nil]; rfl⟩ hsign (by
      rw [hzero, map_nil, value_nil, Nat.zero_mul]
      rfl)
  unfold chrHexToDec
  rw [hc]
  dsimp only
  rw [hrest, hcount fun c hc => (hbytes c hc).1]
  dsimp only
  rw [hminus, hstart]
  have hr' : decLoop signsym limit (h.chars ++ [0]) h.chars.length h.chars.length 0
      (strHeap (signOf signsym h.minus ++ digitChars [0])) = some r := hr
  rw [hr']
  dsimp only
  cases hm : h.minus with
  | false =>
    refine ⟨r, z, by rw [Bool.false_and, if_neg Bool.false_ne_true], his, ?_, hzsign⟩
    rw [hint, SignedHex.toInt, hm]
    rfl
  | true =>
    -- the sum is not negative, and gets its sign now
    have hsigned : signsym = true := hsign hm
    subst hsigned
    obtain ⟨rest, rfl⟩ := his
    refine ⟨.string ((({ z with minus := true } : Signed).operand true).map some ++ rest),
      { z with minus := true }, ?_, ⟨rest, rfl⟩, ?_, fun _ => rfl⟩
    · rw [Bool.and_self, if_pos rfl, operand_cells, operand_cells]
      cases z.minus <;> rfl
    · have hmag : z.magnitude = h.magnitude := magnitude_of_toInt hint
      have hneg : ({ z with minus := true } : Signed).toInt = -(z.magnitude : Int) := rfl
      rw [hneg, hmag, SignedHex.toInt, hm, if_pos rfl]

/-! ## There and back -/

/-- The digits of an operand in a buffer, read as a string. -/
theorem str_hex (signsym : Bool) (h : SignedHex) (rest : Cells) :
    str ((h.operand signsym).map some ++ rest) = some (h.operand signsym) := by
  have hzero : 0 ∉ signOf signsym h.minus ++ h.chars := by
    intro hmem
    rcases mem_append.mp hmem with hmem | hmem
    · cases signsym with
      | true => exact signChar_ne_zero h.minus (mem_singleton.mp hmem).symm
      | false => exact absurd hmem not_mem_nil
    · exact (hex_digit_char 0 (h.hex 0 hmem)).2.1 rfl
  rw [SignedHex.operand, ← append_assoc, map_append, append_assoc]
  exact str_bytes rest hzero

/-- The buffer `p` for a number and the four bytes of `diver` do not overlap. -/
def Apart (addrP addrD magnitude : Nat) : Prop :=
  addrP + (decLength magnitude + 2) ≤ addrD ∨ addrD + 4 ≤ addrP

/-- The conversions invert each other where the buffers of their calls fit in
`malc_limit`, in signed and in unsigned mode; where not even the copy of the decimal
digits fits, `ChrDecToHex` returns the null pointer. -/
theorem hex_round_trip (signsym : Bool) (limit addrP addrD : Nat) :
    (∀ (x : Signed) (ra : Cells), (x.minus = true → signsym = true) →
      Apart addrP addrD x.magnitude → hexRoom signsym x.magnitude ≤ min limit (2 ^ 31) →
      ∃ q hex r z, chrDecToHex signsym limit addrP addrD ((x.operand signsym).map some ++ ra) =
          some (.string q) ∧ str q = some hex ∧ chrHexToDec signsym limit hex = some r ∧
        r.IsOf signsym z ∧ z.toInt = x.toInt) ∧
    (∀ h : SignedHex, (h.minus = true → signsym = true) → Apart addrP addrD h.magnitude →
      hexRoom signsym h.magnitude ≤ min limit (2 ^ 31) →
      ∃ q h' rest, chrHexToDec signsym limit (h.operand signsym) = some (.string q) ∧
        chrDecToHex signsym limit addrP addrD q =
          some (.string ((h'.operand signsym).map some ++ rest)) ∧
        SignedHex.toInt h' = h.toInt) ∧
    (∀ (x : Signed) (ra : Cells), (x.minus = true → signsym = true) →
      limit < x.digits.length + 2 →
      chrDecToHex signsym limit addrP addrD ((x.operand signsym).map some ++ ra) = some .null) := by
  have hroom : ∀ {x : Signed}, hexRoom signsym x.magnitude ≤ min limit (2 ^ 31) →
      x.digits.length + 2 ≤ limit ∧ x.digits.length < 2 ^ 31 ∧
      x.digits.length ≤ decLength x.magnitude := by
    intro x hfit
    have hlen := length_le_decLength (Nat.le_refl x.magnitude)
    unfold hexRoom at hfit
    omega
  refine ⟨fun x ra hsign hapart hfit => ?_, fun h hsign hapart hfit => ?_,
    fun x ra hsign hlong => chrDecToHex_long addrP addrD ra hsign hlong⟩
  · obtain ⟨hlimit, hint, hlen⟩ := hroom hfit
    obtain ⟨h, rest, hhex, hminus, hmag⟩ := chrDecToHex_spec ra hsign hlimit hint
      (hapart.imp_left fun hle => Nat.le_trans (by omega) hle)
    obtain ⟨r, z, hdec, his, htoInt, -⟩ := chrHexToDec_spec h
      (by rw [hminus]; exact hsign) (by rw [hmag]; exact hfit)
    refine ⟨_, h.operand signsym, r, z, hhex, str_hex signsym h rest, hdec, his, ?_⟩
    rw [htoInt, SignedHex.toInt, Signed.toInt, hminus, hmag]
  · obtain ⟨r, z, hdec, ⟨rest, rfl⟩, htoInt, hzsign⟩ := chrHexToDec_spec h hsign hfit
    have hmag : z.magnitude = h.magnitude := by
      unfold Signed.toInt SignedHex.toInt at htoInt
      split at htoInt <;> split at htoInt <;> omega
    rw [← hmag] at hfit hapart
    obtain ⟨hlimit, hint, hlen⟩ := hroom hfit
    obtain ⟨h', rest', hhex, hminus, hmag'⟩ := chrDecToHex_spec rest hzsign hlimit hint
      (hapart.imp_left fun hle => Nat.le_trans (by omega) hle)
    refine ⟨_, h', rest', hdec, hhex, ?_⟩
    rw [← htoInt, SignedHex.toInt, Signed.toInt, hminus, hmag']

/-- The bytes of `FF`. -/
def hexFF : SignedHex where
  minus := true
  chars := [70, 70]
  hex := by decide +kernel
  canonical := ⟨by decide, fun h => by cases h⟩

/-- `1111` and `-FF` there and back, and `1111` where only five bytes may be had. -/
theorem hex_round_trip_ones :
    (∃ q hex r z, chrDecToHex true 0x1000 0 8 (((ones 3).operand true).map some ++ []) =
        some (.string q) ∧ str q = some hex ∧ chrHexToDec true 0x1000 hex = some r ∧
      r.IsOf true z ∧ z.toInt = (ones 3).toInt) ∧
    (∃ q h' rest, chrHexToDec true 0x1000 (hexFF.operand true) = some (.string q) ∧
      chrDecToHex true 0x1000 0 8 q = some (.string ((h'.operand true).map some ++ rest)) ∧
      SignedHex.toInt h' = hexFF.toInt) ∧
    chrDecToHex true 5 0 8 (((ones 3).operand true).map some ++ []) = some .null := by
  obtain ⟨hdec, hhex, -⟩ := hex_round_trip true 0x1000 0 8
  obtain ⟨-, -, hnull⟩ := hex_round_trip true 5 0 8
  have hlog : Nat.log 10 1111 = 3 := Nat.log_eq_of_pow_le_of_lt_pow (by decide) (by decide)
  have hlog' : Nat.log 16 1111 = 2 := Nat.log_eq_of_pow_le_of_lt_pow (by decide) (by decide)
  have hlog'' : Nat.log 10 (16 ^ 2) = 2 := Nat.log_eq_of_pow_le_of_lt_pow (by decide) (by decide)
  have hlogF : Nat.log 10 255 = 2 := Nat.log_eq_of_pow_le_of_lt_pow (by decide) (by decide)
  have hlogF' : Nat.log 16 255 = 1 := Nat.log_eq_of_pow_le_of_lt_pow (by decide) (by decide)
  have hlogF'' : Nat.log 10 (16 ^ 1) = 1 := Nat.log_eq_of_pow_le_of_lt_pow (by decide) (by decide)
  have hones : (ones 3).magnitude = 1111 := rfl
  have hff : hexFF.magnitude = 255 := rfl
  refine ⟨hdec (ones 3) [] (fun _ => rfl) ?_ ?_, hhex hexFF (fun _ => rfl) ?_ ?_,
    hnull (ones 3) [] (fun _ => rfl) (by decide)⟩
  · rw [Apart, hones, decLength, hlog]
    decide
  · rw [hexRoom, hones, hlog', decLength, decLength, hlog'', hlog]
    decide
  · rw [Apart, hff, decLength, hlogF]
    decide
  · rw [hexRoom, hff, hlogF', decLength, decLength, hlogF'', hlogF]
    decide

/-- With the default `malc_limit`, a number of 4095 digits is not converted. -/
theorem chrDecToHex_long_null :
    ¬∀ x : Signed, ∃ q hex r z, chrDecToHex true 0x1000 0 (x.digits.length + 2)
          ((x.operand true).map some ++ []) = some (.string q) ∧
        str q = some hex ∧ chrHexToDec true 0x1000 hex = some r ∧ r.IsOf true z ∧
        z.toInt = x.toInt := by
  intro h
  obtain ⟨q, hex, r, z, hq, -⟩ := h (ones 4094)
  have hlong : 0x1000 < (ones 4094).digits.length + 2 := by
    unfold ones
    dsimp only
    rw [length_cons, length_replicate]
    omega
  rw [chrDecToHex_long 0 _ [] (fun _ => rfl) hlong] at hq
  cases hq

end Unisym.Text
