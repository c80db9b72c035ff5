/-
# `CloverTyping` — well-typed modules

What a backend relies on: every value is defined once and before it is used, every instruction
has the types that its opcode wants, and functions, calls and returns go together.
-/
import Unisym.Lango.CloverParser

namespace Unisym.Lango

/-- The width of an integer type -/
def Ty.integerBits : Ty → Nat
  | i1 => 1
  | i8 => 8
  | i16 => 16
  | i32 => 32
  | i64 => 64
  | _ => 0

namespace Instruction

/-- The instruction has a result of this type. -/
def Yields (i : Instruction) (type : Ty) : Prop := i.hasResult = true ∧ i.result.type = type

/-- The instruction has no result. -/
def YieldsNothing (i : Instruction) : Prop := i.hasResult = false

/-- The typing of the opcodes -/
def Typed (i : Instruction) : Prop :=
  match i.opcode, i.operands with
  | .const, [] => i.type.isInteger ∧ i.Yields i.type
  | .fconst, [] => i.type.isFloat ∧ i.Yields i.type
  | .local, [] => i.Yields .ptr
  | .load, [a] => a.type = .ptr ∧ i.type ≠ .void ∧ i.Yields i.type
  | .store, [v, a] => v.type = i.type ∧ i.type ≠ .void ∧ a.type = .ptr ∧ i.YieldsNothing
  | .mov, [v] => v.type = i.type ∧ i.type ≠ .void ∧ i.Yields i.type
  | .add, [v, w] | .sub, [v, w] | .mul, [v, w] | .sdiv, [v, w] | .udiv, [v, w] | .srem, [v, w]
  | .urem, [v, w] | .and, [v, w] | .or, [v, w] | .xor, [v, w] =>
      i.type.isInteger ∧ v.type = i.type ∧ w.type = i.type ∧ i.Yields i.type
  | .shl, [v, w] | .ashr, [v, w] | .lshr, [v, w] =>
      i.type.isInteger ∧ v.type = i.type ∧ w.type.isInteger ∧ i.Yields i.type
  | .ptradd, [v, w] => v.type = .ptr ∧ w.type.isInteger ∧ i.Yields .ptr
  | .icmp, [v, w] => (i.type.isInteger ∨ i.type = .ptr ∧ (i.predicate = .eq ∨ i.predicate = .ne)) ∧
      v.type = i.type ∧ w.type = i.type ∧ i.Yields .i1
  | .fadd, [v, w] | .fsub, [v, w] | .fmul, [v, w] | .fdiv, [v, w] =>
      i.type.isFloat ∧ v.type = i.type ∧ w.type = i.type ∧ i.Yields i.type
  | .fcmp, [v, w] => i.type.isFloat ∧ v.type = i.type ∧ w.type = i.type ∧ i.Yields .i1
  | .zext, [v] | .sext, [v] => v.type.isInteger ∧ i.type.isInteger ∧
      v.type.integerBits < i.type.integerBits ∧ i.Yields i.type
  | .trunc, [v] => v.type.isInteger ∧ i.type.isInteger ∧
      i.type.integerBits < v.type.integerBits ∧ i.Yields i.type
  | .inttoptr, [v] => v.type.isInteger ∧ i.type = .ptr ∧ i.Yields .ptr
  | .ptrtoint, [v] => v.type = .ptr ∧ i.type.isInteger ∧ i.Yields i.type
  | .sitofp, [v] | .uitofp, [v] => v.type.isInteger ∧ i.type.isFloat ∧ i.Yields i.type
  | .fptosi, [v] | .fptoui, [v] => v.type.isFloat ∧ i.type.isInteger ∧ i.Yields i.type
  | .fpext, [v] => v.type.isFloat ∧ i.type.isFloat ∧ v.type.floatBits < i.type.floatBits ∧
      i.Yields i.type
  | .fptrunc, [v] => v.type.isFloat ∧ i.type.isFloat ∧ i.type.floatBits < v.type.floatBits ∧
      i.Yields i.type
  | .globaladdr, [] => i.Yields .ptr
  | .call, _ => i.type = .void ∧ i.YieldsNothing ∨ i.type ≠ .void ∧ i.Yields i.type
  | .jmp, [] => i.YieldsNothing
  | .jmp, [c] => c.type = .i1 ∧ i.YieldsNothing
  | .ret, [] => i.type = .void ∧ i.YieldsNothing
  | .ret, [v] => i.type ≠ .void ∧ v.type = i.type ∧ i.YieldsNothing
  | _, _ => False

/-- The value that an instruction defines, if it does -/
def definition (i : Instruction) : List Value := if i.hasResult then [i.result] else []

end Instruction

namespace Function

/-- The instructions of a function, from its first block to its last -/
def instructions (f : Function) : List Instruction := f.blocks.flatMap (·.instructions)

/-- The values of the parameters -/
def arguments (f : Function) : List Value := f.parameters.map (·.value)

/-- The values that are defined before these instructions end -/
def definitions (f : Function) (before : List Instruction) : List Value :=
  f.arguments ++ before.flatMap (·.definition)

/-- Every number is defined at most once. -/
def DefinedOnce (f : Function) : Prop := ((f.definitions f.instructions).map (·.id)).Nodup

/-- Every operand is, type and number, a value that was defined before. -/
def OperandsDefined (f : Function) : Prop :=
  ∀ before i after, f.instructions = before ++ i :: after → ∀ v ∈ i.operands,
    v ∈ f.definitions before

/-- Every return has the type of the function. -/
def ReturnsTyped (f : Function) : Prop :=
  ∀ i ∈ f.instructions, i.opcode = .ret → i.type = f.returnType

/-- Exactly one block has the name. -/
def NamesBlock (f : Function) (name : Text) : Prop :=
  (f.blocks.filter fun block => sameName block.name name).length = 1

/-- Every jump names one block, and one with a condition names one for each outcome. -/
def JumpsTyped (f : Function) : Prop :=
  ∀ i ∈ f.instructions, i.opcode = .jmp →
    f.NamesBlock i.target ∧ (i.operands ≠ [] → f.NamesBlock i.targetFalse)

/-- The arguments of a call are those that the function wants; a variadic one takes more. -/
def Accepts (f : Function) (operands : List Value) : Prop :=
  if f.isVariadic then f.arguments.map (·.type) <+: operands.map (·.type)
  else f.arguments.map (·.type) = operands.map (·.type)

end Function

namespace Module

/-- Every call of a function of the module passes arguments of its parameter types. -/
def CallsTyped (m : Module) : Prop :=
  ∀ f ∈ m.functions, ∀ i ∈ f.instructions, i.opcode = .call →
    ∀ callee ∈ m.functions, sameName callee.name i.callee = true → callee.Accepts i.operands

/-- A well-typed module -/
structure WellTyped (m : Module) : Prop where
  once : ∀ f ∈ m.functions, f.DefinedOnce
  operands : ∀ f ∈ m.functions, f.OperandsDefined
  typed : ∀ f ∈ m.functions, ∀ i ∈ f.instructions, i.Typed
  returns : ∀ f ∈ m.functions, f.ReturnsTyped
  calls : m.CallsTyped
  jumps : ∀ f ∈ m.functions, f.JumpsTyped

end Module

/-! ## What nobody checks -/

/-- The types of an integer conversion: to a wider type, or to a narrower one. -/
def integerConversionFits : Opcode → Ty → Ty → Prop
  | .zext, source, destination | .sext, source, destination =>
      source.isInteger ∧ destination.isInteger ∧ source.integerBits < destination.integerBits
  | .trunc, source, destination =>
      source.isInteger ∧ destination.isInteger ∧ destination.integerBits < source.integerBits
  | _, _, _ => True

namespace Instruction

/-- A conversion between integers is from and to integers, and changes the width as it says. -/
def ConversionTyped (i : Instruction) : Prop :=
  ∀ v ∈ i.operands, integerConversionFits i.opcode v.type i.type

/-- A return gives a value of the type that it says. -/
def ReturnTyped (i : Instruction) : Prop := i.opcode = .ret → ∀ v ∈ i.operands, v.type = i.type

end Instruction

end Unisym.Lango
