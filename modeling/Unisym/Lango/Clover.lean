/-
# `Clover` — modules of the Clover IR

A module has sources, globals and functions; a function has blocks of instructions, and an
instruction names its operands by the numbers of the values that were defined before it.

A token of the text, and so a name, may have a zero byte in it.  Where the source compares or
prints it, it ends there: this is its `reference`.
-/
import Mathlib.Data.List.TakeWhile

namespace Unisym.Lango

/-- The contents of a string. -/
abbrev Text := List Char

/-- The byte that ends a string. -/
def nul : Char := Char.ofNat 0

/-- `reference()`: the contents up to the first zero byte. -/
def reference (text : Text) : Text := text.takeWhile (· ≠ nul)

/-! ## Types and opcodes -/

/-- `Type` -/
inductive Ty where
  | void | i1 | i8 | i16 | i32 | i64 | f32 | f64 | f128 | ptr
deriving DecidableEq, Repr

inductive Linkage where
  | external | internal
deriving DecidableEq, Repr

inductive Opcode where
  | const | fconst | local | load | store | mov
  | add | sub | mul | sdiv | udiv | srem | urem | and | or | xor | shl | ashr | lshr
  | ptradd | icmp | fadd | fsub | fmul | fdiv | fcmp | zext | sext | trunc
  | inttoptr | ptrtoint | sitofp | uitofp | fptosi | fptoui | fpext | fptrunc
  | globaladdr | call | jmp | ret
deriving DecidableEq, Repr

inductive FCmpPredicate where
  | eq | ne | lt | le | gt | ge
deriving DecidableEq, Repr

inductive ICmpPredicate where
  | eq | ne | slt | sle | sgt | sge | ult | ule | ugt | uge
deriving DecidableEq, Repr

namespace Ty

/-- `IsIntegerType` -/
def isInteger : Ty → Bool
  | i1 | i8 | i16 | i32 | i64 => true
  | _ => false

/-- `IsFloatType` -/
def isFloat : Ty → Bool
  | f32 | f64 | f128 => true
  | _ => false

def floatBits : Ty → Nat
  | f32 => 32
  | f64 => 64
  | f128 => 128
  | _ => 0

end Ty

/-! ## Instructions -/

structure Value where
  type : Ty := .i64
  id : Nat := 0
deriving DecidableEq, Repr

/-- `Instruction`; what an opcode does not use has its default. -/
structure Instruction where
  opcode : Opcode := .const
  type : Ty := .i64
  hasResult : Bool := false
  result : Value := {}
  operands : List Value := []
  name : Text := []
  debugSource : Text := []
  debugFile : Nat := 0
  debugLine : Nat := 0
  callee : Text := []
  target : Text := []
  targetFalse : Text := []
  immediate : Int := 0
  immediateHigh : Int := 0
  alignment : Nat := 0
  predicate : ICmpPredicate := .eq
  floatPredicate : FCmpPredicate := .eq
deriving DecidableEq, Repr

/-! ## Modules -/

structure SourceFile where
  id : Nat
  path : Text
deriving DecidableEq, Repr

structure BasicBlock where
  name : Text
  instructions : List Instruction := []
deriving DecidableEq, Repr

structure Parameter where
  value : Value
  aggregateGroup : Nat := 0
deriving DecidableEq, Repr

structure Global where
  name : Text
  type : Ty
  initializer : Int := 0
  initializerHigh : Int := 0
  elementCount : Int := 1
  isDeclaration : Bool := false
  isReadOnly : Bool := false
  linkage : Linkage := .external
  initializerValues : List Int := []
deriving DecidableEq, Repr

structure Function where
  name : Text
  returnType : Ty
  parameters : List Parameter := []
  isVariadic : Bool := false
  linkage : Linkage := .external
  blocks : List BasicBlock := []
deriving DecidableEq, Repr

structure Module where
  pointerBits : Nat := 0
  sourceFiles : List SourceFile := []
  globals : List Global := []
  functions : List Function := []
deriving DecidableEq, Repr

end Unisym.Lango
