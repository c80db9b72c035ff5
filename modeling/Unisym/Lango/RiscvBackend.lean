/-
# `RiscvBackend` — the assembly of the RISC-V backend, as far as its labels go

`Generate` writes a label for every object that is defined, for every function and for every block, and the only
jumps are those of `Jmp`.  A block's label joins the names of its function and of the block.

The other opcodes write neither: what they write is a parameter.  A name is compared and printed up to its first zero
byte.  A generation that fails gives nothing.
-/
import Unisym.Lango.RiscvFrame

namespace Unisym.Lango.Riscv

/-- A line of the assembly; `text` is any line that neither defines a label nor jumps. -/
inductive Line where
  | label (name : Text)
  | j (name : Text)
  | bnez (reg : Reg) (name : Text)
  | op (o : Op)
  | text
deriving DecidableEq, Repr

/-- `StrCompare` finds no difference. -/
def same (a b : Text) : Bool := reference a = reference b

/-! ## `ValidateTarget` -/

def findFunction (m : Module) (name : Text) : Option Function := m.functions.find? (same ·.name name)

def findGlobal (m : Module) (name : Text) : Option Global := m.globals.find? (same ·.name name)

def findSourceFile (m : Module) (id : Nat) : Option SourceFile := m.sourceFiles.find? (·.id = id)

/-- The loops that compare each entry with the previous ones -/
def noDuplicate {α : Type} (equal : α → α → Bool) : List α → List α → Bool
  | _, [] => true
  | previous, x :: xs => previous.all (fun y => !equal x y) && noDuplicate equal (previous ++ [x]) xs

def validateRegisterArguments (target : RISCVTargetInfo) : Taken → List Parameter → Bool
  | _, [] => true
  | taken, p :: ps =>
      let type := p.value.type
      if p.aggregateGroup ≠ 0 ∧ type.isFloat ∧ typeBits target type > abiFloatBits target then false
      else match allocateArgumentRegister target type taken with
        | none => false
        | some (_, taken) => validateRegisterArguments target taken ps

def validateGlobal (target : RISCVTargetInfo) (global : Global) : Bool :=
  !(global.type = .f32 && !target.extensionF) &&
  !(global.type = .f64 && !target.extensionD) &&
  (!global.name.isEmpty && global.type ≠ .void && global.elementCount > 0) &&
  (global.initializerValues.isEmpty || global.initializerValues.length = global.elementCount.toNat)

/-- The check of a call against the function that is called -/
def validateCall (m : Module) (i : Instruction) : Bool :=
  match findFunction m i.callee with
  | none => false
  | some callee =>
      i.type = callee.returnType && callee.parameters.length ≤ i.operands.length &&
      (callee.isVariadic || i.operands.length = callee.parameters.length) &&
      (i.operands.zip callee.parameters).all fun (operand, p) => operand.type = p.value.type

def isPowerOfTwo (n : Nat) : Bool := n &&& (n - 1) = 0

def validateInstruction (target : RISCVTargetInfo) (m : Module) (i : Instruction) : Bool :=
  let uses (type : Ty) : Bool := i.type = type || i.operands.any (·.type = type)
  !(uses .f32 && !target.extensionF) &&
  !(uses .f64 && !target.extensionD) &&
  ((i.debugFile = 0) == (i.debugLine = 0)) &&
  (i.debugFile = 0 || (findSourceFile m i.debugFile).isSome) &&
  (i.opcode ≠ .globaladdr || (findGlobal m i.name).isSome) &&
  (i.opcode ≠ .local || i.alignment = 0 || isPowerOfTwo i.alignment && i.alignment ≤ 16) &&
  (i.opcode ∉ [.load, .store] || i.alignment = 0 || isPowerOfTwo i.alignment) &&
  (target.extensionM || i.opcode ∉ [.mul, .sdiv, .udiv, .srem, .urem]) &&
  (i.opcode ≠ .call || validateCall m i)

def validateFunction (target : RISCVTargetInfo) (m : Module) (function : Function) : Bool :=
  (findGlobal m function.name).isNone && validateRegisterArguments target {} function.parameters &&
  (instructions function).all (validateInstruction target m)

def validateTarget (target : RISCVTargetInfo) (m : Module) : Bool :=
  target.bits = 64 &&
  (m.pointerBits = 0 || m.pointerBits = target.bits) &&
  target.extensionI &&
  !(target.extensionD && !target.extensionF) &&
  !(target.abi = .lp64f && !target.extensionF) &&
  !(target.abi = .lp64d && !target.extensionD) &&
  m.sourceFiles.all (fun source => source.id ≠ 0 && !source.path.isEmpty) &&
  noDuplicate (fun a b => a.id = b.id) [] m.sourceFiles &&
  m.globals.all (validateGlobal target) &&
  noDuplicate (fun a b => same a.name b.name) [] m.globals &&
  m.functions.all (validateFunction target m) &&
  noDuplicate (fun a b => same a.name b.name) [] m.functions

/-! ## `Generate` -/

def hasBlock (function : Function) (name : Text) : Bool := function.blocks.any (same ·.name name)

/-- `.L%s_%s` -/
def blockLabel (function block : Text) : Text := ".L".toList ++ reference function ++ '_' :: reference block

section Emission

-- `lower` is what the opcodes other than `Jmp` write, if they can.
variable (lower : Function → FunctionLayout → Instruction → Option (List Op))

/-- The case `Jmp` of `EmitInstruction` -/
def emitJmp (function : Function) (layout : FunctionLayout) (i : Instruction) : Option (List Line) :=
  if !hasBlock function i.target || (!i.targetFalse.isEmpty && !hasBlock function i.targetFalse) then none
  else match i.operands with
    | [] => some [.j (blockLabel function.name i.target)]
    | [condition] =>
        if i.targetFalse.isEmpty || condition.type ≠ .i1 then none
        else (loadValue layout condition (.t 0)).map fun load =>
          load.map .op ++ [.bnez (.t 0) (blockLabel function.name i.target),
            .j (blockLabel function.name i.targetFalse)]
    | _ => none

def emitInstruction (function : Function) (layout : FunctionLayout) (i : Instruction) : Option (List Line) :=
  if i.opcode = .jmp then emitJmp function layout i
  else (lower function layout i).map (·.map .op)

/-- The concatenation of what is written for the entries of a list -/
def emitEach {α : Type} (emit : α → Option (List Line)) : List α → Option (List Line)
  | [] => some []
  | x :: xs => do
      let lines ← emit x
      let rest ← emitEach emit xs
      some (lines ++ rest)

/-- One block of `EmitFunction` -/
def emitBlock (function : Function) (layout : FunctionLayout) (block : BasicBlock) : Option (List Line) :=
  (emitEach (emitInstruction lower function layout) block.instructions).map
    (.label (blockLabel function.name block.name) :: ·)

/-- The last block ends in `Ret` or `Jmp`. -/
def terminated (function : Function) : Bool :=
  match function.blocks.getLast? with
  | none => false
  | some block => match block.instructions.getLast? with
    | none => false
    | some i => i.opcode = .ret || i.opcode = .jmp

/-- What is written behind the blocks -/
def emitEnd (target : RISCVTargetInfo) (function : Function) : List Op :=
  if terminated function then []
  else
    (if function.returnType = .f128 then [.li (.a 0) 0, .li (.a 1) 0]
      else if function.returnType.isFloat ∧ typeBits target function.returnType ≤ abiFloatBits target then [.other]
      else [.li (.a 0) 0]) ++ emitEpilogue

def emitFunction (target : RISCVTargetInfo) (function : Function) : Option (List Line) := do
  let layout ← buildLayout target function
  let stores ← storeParameters target layout {} function.parameters
  let blocks ← emitEach (emitBlock lower function layout) function.blocks
  some ((if function.linkage = .external then [.text] else []) ++
    [.text, .label (reference function.name)] ++
    ((emitPrologue layout.frameSize ++ stores).map .op ++ blocks ++ (emitEnd target function).map .op ++ [.text]))

/-- The body of the loop of `Generate` over the globals -/
def emitGlobal (target : RISCVTargetInfo) (global : Global) : Option (List Line) :=
  if global.isDeclaration then some []
  else
    let elementSize := typeStorageBytes target global.type
    let objectSize := BitVec.ofNat 64 elementSize * BitVec.ofInt 64 global.elementCount
    let values := global.initializerValues
    if elementSize = 0 ∨ objectSize.toInt ≤ 0 then none
    else
      let zero := global.initializer = 0 ∧ global.initializerHigh = 0
      let data : Option (List Line) :=
        if values ≠ [] then
          if elementSize ∈ [1, 2, 4, 8] then some (values.map fun _ => .text) else none
        else if zero then some [.text]
        else if global.elementCount ≠ 1 then none
        else if elementSize ∈ [1, 2, 4, 8] then some [.text]
        else if elementSize = 16 then some [.text, .text]
        else none
      data.map fun data =>
        .text :: (if global.linkage = .external then [.text] else []) ++
          [.text, .text, .text, .label (reference global.name)] ++ data

def generate (target : RISCVTargetInfo) (m : Module) : Option (List Line) :=
  if validateTarget target m then do
    let globals ← emitEach (emitGlobal target) m.globals
    let functions ← emitEach (emitFunction lower target) m.functions
    some (globals ++ .text :: functions)
  else none

end Emission

end Unisym.Lango.Riscv
