/-
# `ChrDiv` — division of decimal strings in place

`ChrDiv` divides by written division: the dividend is moved to a buffer of its own,
the divisor is subtracted from its leading digits as often as it goes, with
`DigDec`, and the count is written into the dividend's buffer, which ends as the
quotient; what is left goes into the divisor's.

A round writes one digit of the quotient and takes its multiple of the divisor off
the buffer, so that `rest + quotient * divisor` stays the dividend (`Dividing`).  It
writes a place whose digit is still zero: behind the last digit written there are
at least as many zeros as the rest has digits beyond the divisor's.
-/
import Unisym.Text.ChrMul

namespace Unisym.Text

open Digits

/-! ## `DigDec` -/

/-- The walk of `DigDec` to the left from `posi` on: zeros become nines, and the first
other digit is lowered. -/
def borrowLeft : Nat → Cells → Option Cells
  | posi, q =>
      match cellAt q posi with
      | none => none
      | some c =>
          if c ≤ 48 then
            match put q posi (c - 1 + 10), posi with
            | some q, posi + 1 => borrowLeft posi q
            | _, _ => none
          else put q posi (c - 1)

def digDec (ascii : UInt8) (posi : Nat) (q : Cells) : Option Cells :=
  match cellAt q posi with
  | none => none
  | some c =>
      let ascii := c - (ascii - 48)
      match put q posi ascii with
      | none => none
      | some q =>
          if ascii ≥ 48 then some q
          else
            match put q posi (ascii + 10), posi with
            | some q, posi + 1 => borrowLeft posi q
            | _, _ => none

/-! ## The parts of `ChrDiv` -/

/-- The string at the start of some cells, with its NUL. -/
def str : Cells → Option Chars
  | some c :: q => if c = 0 then some [0] else (str q).map (c :: ·)
  | _ => none

def strCompareN (q b : Cells) : (n i j : Nat) → Option Int
  | 0, _, _ => some 0
  | n + 1, i, j =>
      match cellAt q i, cellAt b j with
      | some x, some y =>
          if x ≠ y then some ((x.toNat : Int) - y.toNat)
          else if x = 0 then some 0
          else strCompareN q b n (i + 1) (j + 1)
      | _, _ => none

/-- `dest[k] = sors[i + k]` for the first `n` places, from the place `j` of `dest` on. -/
def copyCells (sors : Cells) : (n i j : Nat) → Cells → Option Cells
  | 0, _, _, dest => some dest
  | n + 1, i, j, dest =>
      match cellAt sors i with
      | none => none
      | some c => (put dest j c).bind (copyCells sors n (i + 1) (j + 1))

/-- The `for` loop that subtracts the divisor, `n` rounds before its end: the digits of
`b` from the last one on, at `place` and to the left of it. -/
def subRow (b : Cells) (divSize pb place : Nat) : (n c : Nat) → Cells → Option Cells
  | 0, _, buf => some buf
  | n + 1, c, buf =>
      match cellAt b (pb + (divSize - 1 - c)) with
      | none => none
      | some y =>
          if c ≤ place then
            (digDec y (place - c) buf).bind (subRow b divSize pb place n (c + 1))
          else none

/-- The `do` loop that subtracts while `again` says so, and counts in `tmp`. -/
def subWhile (b : Cells) (divSize pb place : Nat) (again : Cells → Option Bool) :
    (fuel tmp : Nat) → Cells → Option (Nat × Cells)
  | 0, _, _ => none
  | fuel + 1, tmp, buf =>
      match subRow b divSize pb place divSize 0 buf with
      | none => none
      | some buf =>
          match again buf with
          | none => none
          | some true => subWhile b divSize pb place again fuel (tmp + 1) buf
          | some false => some (tmp + 1, buf)

/-- `StrCompareN(buf_sub, b, div_size) >= 0` -/
def reaches (b : Cells) (divSize pb sub : Nat) (buf : Cells) : Option Bool :=
  (strCompareN buf b divSize sub pb).map fun order => decide (order ≥ 0)

/-- `StrCompareN(buf_sub, b, div_size) < 0 && *buf_sub != '0' ||
(StrCompareN(buf_sub + 1, b, div_size) >= 0 && *buf_sub == '0')` -/
def reachesNext (b : Cells) (divSize pb sub : Nat) (buf : Cells) : Option Bool :=
  match strCompareN buf b divSize sub pb, cellAt buf sub,
      strCompareN buf b divSize (sub + 1) pb with
  | some order, some c, some next =>
      some (decide (order < 0 ∧ c ≠ 48 ∨ next ≥ 0 ∧ c = 48))
  | _, _, _ => none

/-- `for (; *buf_sub == '0' && buf_sub[1] != 0; buf_rem--, buf_sub++);` -/
def skipZeros (buf : Cells) : (fuel sub bufRem : Nat) → Option (Nat × Nat)
  | 0, _, _ => none
  | fuel + 1, sub, bufRem =>
      match cellAt buf sub with
      | none => none
      | some c =>
          if c = 48 then
            match cellAt buf (sub + 1) with
            | none => none
            | some d =>
                if d ≠ 0 then skipZeros buf fuel (sub + 1) (bufRem - 1) else some (sub, bufRem)
          else some (sub, bufRem)

/-- `for (; *buf_sub == '0'; buf_rem--, buf_sub++);` -/
def skipAllZeros (buf : Cells) : (fuel sub bufRem : Nat) → Option (Nat × Nat)
  | 0, _, _ => none
  | fuel + 1, sub, bufRem =>
      match cellAt buf sub with
      | none => none
      | some c =>
          if c = 48 then skipAllZeros buf fuel (sub + 1) (bufRem - 1) else some (sub, bufRem)

/-- The buffers and variables of the division. -/
structure DivState where
  a : Cells
  buf : Cells
  sub : Nat
  bufRem : Nat

/-- The body of `while (buf_rem > div_size)`.  The counts of the `do` loops are digits:
ten rounds are more than they take. -/
def divRound (b : Cells) (divSize pb endofa : Nat) (s : DivState) : Option DivState :=
  match reaches b divSize pb s.sub s.buf with
  | none => none
  | some here =>
      let (again, place, out) :=
        if here then
          (reaches b divSize pb s.sub, s.sub + divSize - 1, endofa + divSize - s.bufRem)
        else
          (reachesNext b divSize pb s.sub, s.sub + divSize, endofa + divSize + 1 - s.bufRem)
      match subWhile b divSize pb place again 10 0 s.buf with
      | none => none
      | some (tmp, buf) =>
          match put s.a out (UInt8.ofNat (tmp + 48)), skipZeros buf (buf.length + 1) s.sub s.bufRem with
          | some a, some (sub, bufRem) => some ⟨a, buf, sub, bufRem⟩
          | _, _ => none

/-- `while (buf_rem > div_size)`; `fuel` bounds the rounds. -/
def divLoop (b : Cells) (divSize pb endofa : Nat) : (fuel : Nat) → DivState → Option DivState
  | 0, _ => none
  | fuel + 1, s =>
      if s.bufRem > divSize then
        (divRound b divSize pb endofa s).bind (divLoop b divSize pb endofa fuel)
      else some s

/-- `b[_c] = buf_sub[_c]` for `buf_rem` digits, and the NUL. -/
def putRest (s : DivState) (b : Cells) (pb : Nat) : Option Cells :=
  (copyCells s.buf s.bufRem s.sub pb b).bind fun b => put b (pb + s.bufRem) 0

/-- `ChrDiv` behind its loop: the last digit of the quotient, and the rest. -/
def divLast (b : Cells) (divSize pb endofa : Nat) (s : DivState) : Option (Cells × Cells) :=
  if s.bufRem = divSize then
    match strCompareN s.buf b s.bufRem s.sub pb with
    | none => none
    | some tmp =>
        if tmp < 0 then (putRest s b pb).map (s.a, ·)
        else if tmp = 0 then
          match (put b pb 48).bind fun b => put b (pb + 1) 0, digInc 49 endofa s.a with
          | some b, some (a, _) => some (a, b)
          | _, _ => none
        else
          match subWhile b divSize pb (s.sub + s.bufRem - 1) (reaches b s.bufRem pb s.sub) 10 0
              s.buf with
          | none => none
          | some (tmp, buf) =>
              match digInc (UInt8.ofNat (tmp + 48)) endofa s.a,
                  skipAllZeros buf (buf.length + 1) s.sub s.bufRem with
              | some (a, _), some (sub, bufRem) =>
                  match copyCells buf bufRem sub pb b with
                  | none => none
                  | some b =>
                      (if bufRem ≠ 0 then put b (pb + bufRem) 0
                        else (put b pb 48).bind fun b => put b (pb + 1) 0).map (a, ·)
              | _, _ => none
  else (putRest s b pb).map (s.a, ·)

/-! ## `ChrDiv` -/

/-- The operands after a call, and `aflaga.fail`. -/
structure Division where
  a : Cells
  b : Cells
  fail : Bool

/-- `a[_c] = '0'` for the digits of `a`. -/
def zeroCells : (n i : Nat) → Cells → Option Cells
  | 0, _, q => some q
  | n + 1, i, q => (put q i 48).bind (zeroCells n (i + 1))

/-- `ChrDiv` from the allocation on. -/
def divMagnitudes (limit p : Nat) (a : Cells) (lengthA : Nat) (b : Cells) (lengthB : Nat) :
    Option Division :=
  if lengthA + 1 > limit then some ⟨a, b, true⟩
  else if lengthA ≥ 2 ^ 31 then none
  else
    match copyCells a lengthA p 0 (List.replicate lengthA none ++ [some 0]),
        zeroCells lengthA p a with
    | some buf, some zeros =>
        match divLoop b lengthB p (p + lengthA - 1) (2 * lengthA + 2) ⟨zeros, buf, 0, lengthA⟩ with
        | none => none
        | some s =>
            match divLast b lengthB p (p + lengthA - 1) s with
            | none => none
            | some (a, b) => (chrCpz (a.drop p)).map fun q => ⟨a.take p ++ q, b, false⟩
    | _, _ => none

/-- `ChrDiv` behind the signs: the digits of `a` and `b` begin at the place `p`.  The
loop that copies a small dividend counts in `int`. -/
def divDigits (limit addrA addrB p : Nat) (a b : Cells) : Option Division :=
  match str (a.drop p), str (b.drop p) with
  | some as, some bs =>
      match countDigits as, countDigits bs with
      | some lengthA, some lengthB =>
          let pa := addrA + p
          let pb := addrB + p
          if lengthA = 0 ∨ lengthB = 0 then some ⟨a, b, true⟩
          else if pa < pb ∧ pa + lengthA ≥ pb - 1 ∨ pa = pb ∨ pa > pb ∧ pb + lengthB ≥ pa - 1 then
            some ⟨a, b, true⟩
          else if bs.head? = some 48 then some ⟨a, b, true⟩
          else
            match (if lengthA = lengthB then strCompare as bs else some 0) with
            | none => none
            | some order =>
                if as.head? = some 48 ∨ lengthB > lengthA ∨ lengthB = lengthA ∧ order < 0 then
                  if lengthA ≥ 2 ^ 31 then none
                  else
                    match (copyCells a lengthA p p b).bind fun b => put b (p + lengthA) 0,
                        (put a p 48).bind fun a => put a (p + 1) 0 with
                    | some b, some a => some ⟨a, b, false⟩
                    | _, _ => none
                else divMagnitudes limit p a lengthA b lengthB
      | _, _ => none
  | _, _ => none

/-- `ChrDiv`, of operands that are not null, at the addresses `addrA` and `addrB`. -/
def chrDiv (signsym : Bool) (limit addrA addrB : Nat) (a b : Cells) : Option Division :=
  match cellAt a 0, cellAt b 0 with
  | some x, some y =>
      if x = 0 ∨ y = 0 then some ⟨a, b, true⟩
      else if signsym then
        if x ≠ 43 ∧ x ≠ 45 ∨ y ≠ 43 ∧ y ≠ 45 then some ⟨a, b, true⟩
        else
          match put a 0 (if xor (x == 45) (y == 45) then 45 else 43), put b 0 x with
          | some a, some b => divDigits limit addrA addrB 1 a b
          | _, _ => none
      else divDigits limit addrA addrB 0 a b
  | _, _ => none

end Unisym.Text
