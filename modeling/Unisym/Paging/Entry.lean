/-
# `Entry` — page entries

`PageEntry` of the x86 and x64 builds, as the machine word it is: which level
an entry is read at decides what it means.  Fields of a word are `/` and `%` by
powers of two.
-/
import Mathlib.Data.Nat.Bitwise
import Mathlib.Tactic.IntervalCases

namespace Unisym.Paging

/-! ## The two builds -/

/-- `_ARC_x86` and `_ARC_x64`. -/
inductive Target where
  | x86
  | x64
  deriving DecidableEq, Repr

namespace Target

/-- The bits of a `stduint`. -/
def bits : Target → Nat
  | x86 => 32
  | x64 => 64

/-- `PAGE_LEVELS` less one: the level of the root table. -/
def rootLevel : Target → Nat
  | x86 => 1
  | x64 => 3

/-- `VPN_SHIFTS`. -/
def vpnShift : Target → Nat → Nat
  | x86, 0 => 12
  | x86, _ => 22
  | x64, 0 => 12
  | x64, 1 => 21
  | x64, 2 => 30
  | x64, _ => 39

/-- `PAGE_ENTRY_COUNTS`, the same at every level. -/
def entryCount : Target → Nat
  | x86 => 1024
  | x64 => 512

/-- `PAGE_LEVEL_CAN_LEAF`. -/
def canLeaf : Target → Nat → Bool
  | x86, level => decide (level ≤ 1)
  | x64, level => decide (level ≤ 2)

end Target

/-! ## Page entries -/

namespace PageEntry

/-- Bit `k` of a word. -/
def bit (raw k : Nat) : Bool := raw / 2 ^ k % 2 == 1

def isPresent (raw : Nat) : Bool := bit raw 0

def isHuge (t : Target) (raw level : Nat) : Bool :=
  level != 0 && t.canLeaf level && isPresent raw && bit raw 7

def isLeaf (t : Target) (raw level : Nat) : Bool :=
  isPresent raw && (level == 0 || isHuge t raw level)

def isTable (raw level : Nat) : Bool :=
  level != 0 && isPresent raw && !bit raw 7

/-- The address a table entry holds, or level 0 a page: `address` is `5 * sizeof(stduint)` bits
wide. -/
def addressField (t : Target) (raw : Nat) : Nat :=
  raw / 2 ^ 12 % 2 ^ (5 * (t.bits / 8)) * 2 ^ 12

def getAddress (t : Target) (raw level : Nat) : Nat :=
  if level = 0 then addressField t raw
  else if !isHuge t raw level then addressField t raw
  else
    match t with
    | .x86 => raw / 2 ^ 22 % 2 ^ 10 * 2 ^ 22 + raw / 2 ^ 13 % 2 ^ 4 * 2 ^ 32
    | .x64 =>
        if level = 1 then raw / 2 ^ 21 % 2 ^ 31 * 2 ^ 21
        else raw / 2 ^ 30 % 2 ^ 22 * 2 ^ 30

end PageEntry

end Unisym.Paging
