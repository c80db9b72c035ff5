/-
# `Chrar` — arithmetic on decimal strings, the code

`ChrAdd`, `ChrSub` and `ChrCmp` on NUL-terminated strings of a sign and digits,
and what they call.  An operand is the list of its bytes with the NUL, a pointer
into it an index; a result is a list of cells, `none` for a byte that was not
written yet.  A read or a write outside, and a read of such a byte, is a fault
(`none`).  Indices that may run below the start are integers.

`signsym` is `aflaga.signsym`, the signed mode; `limit` is `malc_limit`.
-/
import Mathlib.Data.List.Basic

namespace Unisym.Text

/-- The bytes of an operand. -/
abbrev Chars := List UInt8

/-- The bytes of a result. -/
abbrev Cells := List (Option UInt8)

/-- `p[i]` of an operand. -/
def charAt (p : Chars) (i : Int) : Option UInt8 := if 0 ≤ i then p[i.toNat]? else none

/-- `q[i]` of a result. -/
def cellAt (q : Cells) (i : Nat) : Option UInt8 := q[i]?.join

/-- `q[i] = c`. -/
def put (q : Cells) (i : Nat) (c : UInt8) : Option Cells :=
  if i < q.length then some (q.set i (some c)) else none

/-- `'0' <= c && c <= '9'`. -/
def isDigit (c : UInt8) : Bool := decide (48 ≤ c.toNat ∧ c.toNat ≤ 57)

/-- `StrCompare`: the difference of the first bytes that differ. -/
def strCompare : Chars → Chars → Option Int
  | x :: a, y :: b =>
      if x ≠ y then some ((x.toNat : Int) - y.toNat)
      else if x = 0 then some 0
      else strCompare a b
  | _, _ => none

/-- How many digits there are before the first other byte. -/
def countDigits : Chars → Option Nat
  | [] => none
  | c :: p => if isDigit c then (countDigits p).map (· + 1) else some 0

/-- The index of the NUL. -/
def countBytes : Chars → Option Nat
  | [] => none
  | c :: p => if c = 0 then some 0 else (countBytes p).map (· + 1)

/-- The sign of an operand: its bytes after the sign, and whether it is `'-'`. -/
def takeSign (a : Chars) : Option (Chars × Bool) :=
  let a := if a.head? = some 43 then a.tail else a
  match a.head? with
  | none => none
  | some c => if c = 45 then some (a.tail, true) else some (a, false)

/-! ## `ChrCpz` -/

/-- `StrLength` from `i` on; the first argument bounds the rounds. -/
def cellsLength (q : Cells) : Nat → Nat → Option Nat
  | 0, _ => none
  | fuel + 1, i =>
      match cellAt q i with
      | none => none
      | some c => if c = 0 then some 0 else (cellsLength q fuel (i + 1)).map (· + 1)

/-- The loop that counts the zeros from `i` on. -/
def countZeros (q : Cells) : Nat → Nat → Option Nat
  | 0, _ => none
  | fuel + 1, i =>
      match cellAt q i with
      | none => none
      | some c => if c = 48 then (countZeros q fuel (i + 1)).map (· + 1) else some 0

/-- `MemRelative` to lower addresses: `width` bytes from `addr` on, `num` down. -/
def memRelative (num : Nat) : (width addr : Nat) → Cells → Option Cells
  | 0, _, q => some q
  | width + 1, addr, q =>
      match cellAt q addr with
      | none => none
      | some c =>
          match put q (addr - num) c with
          | none => none
          | some q => memRelative num width (addr + 1) q

/-- `ChrCpz`, without the number it returns. -/
def chrCpz (q : Cells) : Option Cells :=
  match cellAt q 0 with
  | none => none
  | some sign =>
      let str := if sign = 43 ∨ sign = 45 then 1 else 0
      match cellsLength q (q.length + 1) str, countZeros q (q.length + 1) str with
      | some siz, some num =>
          if num = 0 then some q
          else
            match cellAt q (str + num), cellAt q (str + num - 1) with
            | some c, some last =>
                if c = 0 ∧ last = 48 then put q (str + 1) 0
                else memRelative num (siz - num + 1) (str + num) q
            | _, _ => none
      | _, _ => none

/-! ## `ChrAdd` and `ChrSub` -/

/-- The loop of `ChrAdd`; `loopTime` is the place to write.  Where `endofb` is
below the operand nothing is added, which is what a digit `'0'` adds. -/
def addLoop (signsym : Nat) (a b : Chars) : Nat → Int → Int → Bool → Cells → Option (Bool × Cells)
  | 0, _, _, carry, q => some (carry, q)
  | loopTime + 1, endofa, endofb, carry, q =>
      match charAt a endofa, (if endofb ≥ 0 then charAt b endofb else some 48) with
      | some x, some y =>
          let regichar := x - 0x30 + (y - 0x30) + (if carry then 1 else 0)
          let carry := decide (regichar > 9)
          let regichar := if carry then regichar - 10 else regichar
          match put q (loopTime + 1 + signsym) (regichar + 0x30) with
          | none => none
          | some q =>
              addLoop signsym a b loopTime (endofa - 1) (if endofb ≥ 0 then endofb - 1 else endofb)
                carry q
      | _, _ => none

/-- The loop of `ChrSub`. -/
def subLoop (signsym : Nat) (a b : Chars) : Nat → Int → Int → Bool → Cells → Option Cells
  | 0, _, _, _, q => some q
  | loopTime + 1, endofa, endofb, borrow, q =>
      match charAt a endofa, (if endofb ≥ 0 then charAt b endofb else some 48) with
      | some x, some y =>
          let regichar : Int8 := (x - 0x30 - (y - 0x30) - (if borrow then 1 else 0)).toInt8
          let borrow := decide (regichar < 0)
          let regichar := if borrow then regichar + 10 else regichar
          match put q (loopTime + signsym) (regichar.toUInt8 + 0x30) with
          | none => none
          | some q =>
              subLoop signsym a b loopTime (endofa - 1) (if endofb ≥ 0 then endofb - 1 else endofb)
                borrow q
      | _, _ => none

/-- What a call returns: the null pointer, or the result. -/
inductive Result where
  | null
  | string (q : Cells)

/-- The result buffer with its NUL and, in signed mode, its sign. -/
def newResult (signsym : Bool) (siz : Nat) (minus : Bool) : Option Cells :=
  let q := List.replicate siz none
  if signsym then (put q (siz - 1) 0).bind fun q => put q 0 (if minus then 45 else 43)
  else put q (siz - 2) 0

/-- `ChrAdd` of operands with the sign `signA` of the first. -/
def addMagnitudes (signsym : Bool) (limit : Nat) (a b : Chars) (signA signB : Bool) :
    Option Result :=
  match countDigits a, countDigits b with
  | some lengthA, some lengthB =>
      if lengthA = 0 ∨ lengthB = 0 then some .null
      else
        let (a, lengthA, b, lengthB, signA) :=
          if lengthA < lengthB then (b, lengthB, a, lengthA, signB)
          else (a, lengthA, b, lengthB, signA)
        let siz := lengthA - 1 + 4
        if siz > limit then some .null
        else
          match newResult signsym siz signA with
          | none => none
          | some q =>
              match addLoop signsym.toNat a b (siz - 3) (lengthA - 1) (lengthB - 1) false q with
              | none => none
              | some (carry, q) =>
                  match put q signsym.toNat ((if carry then 1 else 0) + 0x30) with
                  | none => none
                  | some q => (chrCpz q).map .string
  | _, _ => none

/-- `ChrSub` of operands with the sign `signA` of both. -/
def subMagnitudes (signsym : Bool) (limit : Nat) (a b : Chars) (signA signB : Bool) :
    Option Result :=
  match countDigits a, countDigits b with
  | some lengthA, some lengthB =>
      if lengthA = 0 ∨ lengthB = 0 then some .null
      else
        match (if lengthA = lengthB then strCompare a b else some 0) with
        | none => none
        | some order =>
            let xchged := decide (lengthA < lengthB ∨ lengthA = lengthB ∧ order < 0)
            let (a, lengthA, b, lengthB, signA) :=
              if xchged then (b, lengthB, a, lengthA, signB) else (a, lengthA, b, lengthB, signA)
            let siz := lengthA - 1 + 3
            if siz > limit then some .null
            else
              match newResult signsym siz (xor signA xchged) with
              | none => none
              | some q =>
                  match subLoop (signsym.toNat) a b (siz - 2) (lengthA - 1) (lengthB - 1) false q with
                  | none => none
                  | some q => (chrCpz q).map .string
  | _, _ => none

/-- `r[0] = '-'` in signed mode; `r` may be the null pointer. -/
def setMinus (signsym : Bool) : Result → Option Result
  | .null => if signsym then none else some .null
  | .string q => if signsym then (put q 0 45).map .string else some (.string q)

mutual

/-- `ChrAdd`; the operands are not null.  The calls of `ChrSub` and `ChrAdd` are on
the rest of the operands, and the first argument bounds their number. -/
def chrAddFrom (signsym : Bool) (limit : Nat) : Nat → Chars → Chars → Option Result
  | 0, _, _ => none
  | depth + 1, a, b =>
      match a.head?, b.head? with
      | some x, some y =>
          if x = 0 ∨ y = 0 then some .null
          else
            match takeSign a, takeSign b with
            | some (a, signA), some (b, signB) =>
                if signA ≠ signB then
                  if signA then chrSubFrom signsym limit depth b a else chrSubFrom signsym limit depth a b
                else addMagnitudes signsym limit a b signA signB
            | _, _ => none
      | _, _ => none

/-- `ChrSub`. -/
def chrSubFrom (signsym : Bool) (limit : Nat) : Nat → Chars → Chars → Option Result
  | 0, _, _ => none
  | depth + 1, a, b =>
      match a.head?, b.head? with
      | some x, some y =>
          if x = 0 ∨ y = 0 then some .null
          else
            match takeSign a, takeSign b with
            | some (a, signA), some (b, signB) =>
                if signA ≠ signB then
                  if signA then (chrAddFrom signsym limit depth a b).bind (setMinus signsym)
                  else chrAddFrom signsym limit depth a b
                else subMagnitudes signsym limit a b signA signB
            | _, _ => none
      | _, _ => none

end

/-- `ChrAdd`, called from outside. -/
def chrAdd (signsym : Bool) (limit : Nat) (a b : Chars) : Option Result :=
  chrAddFrom signsym limit (a.length + b.length + 1) a b

/-- `ChrSub`, called from outside. -/
def chrSub (signsym : Bool) (limit : Nat) (a b : Chars) : Option Result :=
  chrSubFrom signsym limit (a.length + b.length + 1) a b

/-! ## `ChrCmp` -/

def chrCmp (a b : Chars) : Option Int :=
  match strCompare a b with
  | none => none
  | some order =>
      if order = 0 then some 0
      else
        match takeSign a, takeSign b with
        | some (a, sga), some (b, sgb) =>
            if a.head? = some 48 ∧ b.head? = some 48 then some 0
            else
              match countBytes a, countBytes b with
              | some lengthA, some lengthB =>
                  match (if lengthA = lengthB then strCompare a b else some 0) with
                  | none => none
                  | some order =>
                      let greater := if lengthA = lengthB then decide (order > 0)
                        else decide (lengthA > lengthB)
                      if sga ≠ sgb then some (if sga then -1 else 1)
                      else some (if xor (!sga) (!greater) then 1 else -1)
              | _, _ => none
        | _, _ => none

end Unisym.Text
