/-
# `FrontendC` — targets and types of the C frontend

A type has a base, a count of pointers and a list of array bounds.  With both it is a pointer (`isPointer`), whatever
the declaration said.  Qualifiers are left out.
-/
import Mathlib.Algebra.BigOperators.Group.List.Basic

namespace Unisym.Lango.FrontendC

structure FrontendCTargetInfo where
  charBits : Nat := 8
  shortBits : Nat := 16
  intBits : Nat := 32
  longBits : Nat := 64
  longLongBits : Nat := 64
  floatBits : Nat := 32
  doubleBits : Nat := 64
  longDoubleBits : Nat := 128
  pointerBits : Nat := 64
  charAlignBits : Nat := 8
  shortAlignBits : Nat := 16
  intAlignBits : Nat := 32
  longAlignBits : Nat := 64
  longLongAlignBits : Nat := 64
  floatAlignBits : Nat := 32
  doubleAlignBits : Nat := 64
  longDoubleAlignBits : Nat := 128
  pointerAlignBits : Nat := 64
deriving DecidableEq, Repr

inductive FrontendCIntegerRank where
  | bool | char | short | int | long | longLong
deriving DecidableEq, Repr

inductive FrontendCScalarKind where
  | integer | float | double | longDouble
deriving DecidableEq, Repr

structure FrontendCType where
  integerRank : FrontendCIntegerRank := .int
  scalarKind : FrontendCScalarKind := .integer
  isSigned : Bool := true
  isVoid : Bool := false
  isIncomplete : Bool := false
  recordId : Nat := 0
  enumId : Nat := 0
  pointerDepth : Nat := 0
  arrayDimensions : List Nat := []
deriving DecidableEq, Repr

namespace FrontendCType

def maxArrayDimensions : Nat := 16
def maxPointerDepth : Nat := 16

def isPointer (type : FrontendCType) : Bool := type.pointerDepth ≠ 0

/-- `IsVoid` -/
def isVoidType (type : FrontendCType) : Bool := type.isVoid && type.pointerDepth = 0

def appendArrayDimension (type : FrontendCType) (count : Nat) : Option FrontendCType :=
  if type.arrayDimensions.length ≥ maxArrayDimensions then none
  else some { type with arrayDimensions := type.arrayDimensions ++ [count] }

/-- `StorageElementCount`, a product of `stduint`s -/
def storageElementCount (type : FrontendCType) : Nat := type.arrayDimensions.foldl (fun n d => n * d % 2 ^ 64) 1

def addressType (type : FrontendCType) : FrontendCType :=
  if type.pointerDepth < maxPointerDepth then { type with pointerDepth := type.pointerDepth + 1 } else type

end FrontendCType

end Unisym.Lango.FrontendC
