/-
# `StrReplace` — `StrReplace.c`

`StrReplace` collects the places of the matches in a chain, takes a block of the size that they give, and copies.
Strings are in a memory of blocks: a read of what is not there or was not written has no result, and neither has a
write outside of a block.  `size_t` has `bits` bits; blocks are to be had.

A loop that reads goes along the cells.  A loop that also writes runs on the number of cells it has left.
-/
import Mathlib.Algebra.Group.Nat.Defs
import Mathlib.Algebra.Group.Int.Defs
import Unisym.Library.Blocks

namespace Unisym.StrReplace

open Unisym.Blocks

abbrev Cell := Option UInt8

/-- `for (; s[n]; n++);` -/
def length : List Cell → Option Nat
  | some c :: s => if c = 0 then some 0 else (length s).map (· + 1)
  | _ => none

/-- The inner loop of `StrIndexString`, and `!sub[len]`. -/
def begins : (sub dest : List Cell) → Option Bool
  | some a :: sub, some b :: dest => if a = b ∧ a ≠ 0 then begins sub dest else some (a == 0)
  | _, _ => none

/-- `StrIndexString`, as the distance from `dest` -/
def indexString (sub : List Cell) : (dest : List Cell) → Option (Option Nat)
  | some b :: dest =>
      if b = 0 then some none
      else do
        if ← begins sub (some b :: dest) then some (some 0)
        else
          let found ← indexString sub dest
          some (found.map (· + 1))
  | _ => none

/-- A node of the chain; `lens` and `type` are one member. -/
structure Node where
  addr : Pointer
  lens : Nat

/-- The loop that looks for matches; the first argument bounds its iterations. -/
def findLoop (m : Memory UInt8) (subfrom : Pointer) (szSubfrom timeLimit : Nat) :
    (fuel : Nat) → (p : Pointer) → (nums : Nat) → (dc : List Node) → Option (Nat × List Node)
  | 0, _, _, _ => none
  | fuel + 1, p, nums, dc =>
      if nums < timeLimit then do
        match ← indexString (m.cells subfrom) (m.cells p) with
        | none => some (nums, dc)
        | some n =>
            let p := p.add n
            findLoop m subfrom szSubfrom timeLimit fuel (p.add szSubfrom) (nums + 1) (dc ++ [⟨p, szSubfrom⟩])
      else some (nums, dc)

/-- `for (; p < addr; p++) *q++ = *p;`, with `n` bytes left. -/
def copyBytes : (n : Nat) → (m : Memory UInt8) → (p q : Pointer) → Option (Memory UInt8)
  | 0, m, _, _ => some m
  | n + 1, m, p, q => do
      let c ← m.load p
      let m ← m.store q c
      copyBytes n m (p.add 1) (q.add 1)

/-- `for (; *p; p++) *q++ = *p;` with `n` cells left; where `q` is behind it. -/
def copyString : (n : Nat) → (m : Memory UInt8) → (p q : Pointer) → Option (Memory UInt8 × Pointer)
  | 0, _, _, _ => none
  | n + 1, m, p, q => do
      let c ← m.load p
      if c = 0 then some (m, q)
      else
        let m ← m.store q c
        copyString n m (p.add 1) (q.add 1)

/-- `loop:`, and the rest of the string. -/
def writeLoop (subto : Pointer) : (dc : List Node) → (m : Memory UInt8) → (p q : Pointer) →
    Option (Memory UInt8 × Pointer)
  | [], m, p, q => copyString (m.cells p).length m p q
  | dn :: dc, m, p, q => do
      let n := dn.addr.place - p.place
      let m ← copyBytes n m p q
      let (m, q) ← copyString (m.cells subto).length m subto (q.add n)
      writeLoop subto dc m ((p.add n).add dn.lens) q

/-- `salc`; there is no block of size 0. -/
def salc (m : Memory UInt8) (size : Nat) : Option (Pointer × Memory UInt8) :=
  if size = 0 then none else some (⟨m.next, 0⟩, m.alloc (List.replicate (size - 1) none ++ [some 0]))

def zalc (m : Memory UInt8) (size : Nat) : Pointer × Memory UInt8 :=
  (⟨m.next, 0⟩, m.alloc (List.replicate size (some 0)))

def strHeap (bits : Nat) (m : Memory UInt8) (str : Pointer) : Option (Pointer × Memory UInt8) := do
  let slen ← length (m.cells str)
  let (ret, m) := zalc m ((slen + 1) % 2 ^ bits)
  let (m, q) ← copyString (m.cells str).length m str ret
  let m ← m.store q 0
  some (ret, m)

/-- `malc_limit`, which nothing assigns. -/
def malcLimit : Nat := 0x1000

/-- What `StrReplace` returns, the memory, and `*times`. -/
structure Outcome where
  ret : Pointer
  memory : Memory UInt8
  times : Option Nat

/-- `StrReplace` on strings that are there. -/
def replaceIn (bits : Nat) (m : Memory UInt8) (dest subfrom subto : Pointer) (times : Option Nat) : Option Outcome := do
  let timeLimit := times.getD (2 ^ bits - 1)
  if (← m.load dest) = 0 then
    let (ret, m) ← strHeap bits m dest
    some ⟨ret, m, times.map fun _ => 0⟩
  else if (← m.load subfrom) = 0 then
    let (ret, m) ← strHeap bits m dest
    some ⟨ret, m, times.map fun _ => 0⟩
  else
    let szSubto ← length (m.cells subto)
    let szSubfrom ← length (m.cells subfrom)
    let szLen ← length (m.cells dest)
    let charsAdd : Int := szSubto - szSubfrom
    let (nums, dc) ← findLoop m subfrom szSubfrom timeLimit (szLen + 1) dest 0 []
    if nums ≠ 0 then
      let (ret, m) ← salc m ((szLen + charsAdd * nums + 1) % 2 ^ bits).toNat
      let (m, q) ← writeLoop subto dc m dest ret
      let m ← m.store q 0
      some ⟨ret, m, times.map fun _ => nums⟩
    else
      let (ret, m) ← strHeap bits m dest
      some ⟨ret, m, times.map fun _ => 0⟩

def strReplace (bits : Nat) (m : Memory UInt8) (dest subfrom subto : Option Pointer) (times : Option Nat) :
    Option Outcome :=
  match dest, subfrom, subto with
  | some dest, some subfrom, some subto =>
      if malcLimit = 0 then some ⟨(zalc m 1).1, (zalc m 1).2, times.map fun _ => 0⟩
      else replaceIn bits m dest subfrom subto times
  | _, _, _ => some ⟨(zalc m 1).1, (zalc m 1).2, times.map fun _ => 0⟩

end Unisym.StrReplace
