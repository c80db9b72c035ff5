/-
# `CloverPrinter` — `clover::Print`

The stream gets what the functions here give.  A name is printed up to its first zero byte; only
the path of a source is quoted.  The position of an instruction is printed when it changes.
-/
import Unisym.Lango.Clover

namespace Unisym.Lango

/-- `%[u]` -/
def outUnsigned (n : Nat) : Text := Nat.toDigits 10 n

/-- `%[i]` -/
def outSigned (n : Int) : Text :=
  if n < 0 then '-' :: Nat.toDigits 10 n.natAbs else Nat.toDigits 10 n.natAbs

def typeName : Ty → Text
  | .void => "void".toList
  | .i1 => "i1".toList
  | .i8 => "i8".toList
  | .i16 => "i16".toList
  | .i32 => "i32".toList
  | .i64 => "i64".toList
  | .f32 => "f32".toList
  | .f64 => "f64".toList
  | .f128 => "f128".toList
  | .ptr => "ptr".toList

def floatPredicateName : FCmpPredicate → Text
  | .eq => "eq".toList
  | .ne => "ne".toList
  | .lt => "lt".toList
  | .le => "le".toList
  | .gt => "gt".toList
  | .ge => "ge".toList

/-- `OpcodeName`, with the names that `PrintInstruction` chooses in place -/
def opcodeName : Opcode → Text
  | .const => "const".toList
  | .fconst => "fconst".toList
  | .local => "local".toList
  | .load => "load".toList
  | .store => "store".toList
  | .mov => "mov".toList
  | .add => "add".toList
  | .sub => "sub".toList
  | .mul => "mul".toList
  | .sdiv => "sdiv".toList
  | .udiv => "udiv".toList
  | .srem => "srem".toList
  | .urem => "urem".toList
  | .and => "and".toList
  | .or => "or".toList
  | .xor => "xor".toList
  | .shl => "shl".toList
  | .ashr => "ashr".toList
  | .lshr => "lshr".toList
  | .ptradd => "ptradd".toList
  | .icmp => "icmp".toList
  | .fadd => "fadd".toList
  | .fsub => "fsub".toList
  | .fmul => "fmul".toList
  | .fdiv => "fdiv".toList
  | .fcmp => "fcmp".toList
  | .zext => "zext".toList
  | .sext => "sext".toList
  | .trunc => "trunc".toList
  | .inttoptr => "inttoptr".toList
  | .ptrtoint => "ptrtoint".toList
  | .sitofp => "sitofp".toList
  | .uitofp => "uitofp".toList
  | .fptosi => "fptosi".toList
  | .fptoui => "fptoui".toList
  | .fpext => "fpext".toList
  | .fptrunc => "fptrunc".toList
  | .globaladdr => "globaladdr".toList
  | .call => "call".toList
  | .jmp => "jmp".toList
  | .ret => "ret".toList

def predicateName : ICmpPredicate → Text
  | .eq => "eq".toList
  | .ne => "ne".toList
  | .slt => "slt".toList
  | .sle => "sle".toList
  | .sgt => "sgt".toList
  | .sge => "sge".toList
  | .ult => "ult".toList
  | .ule => "ule".toList
  | .ugt => "ugt".toList
  | .uge => "uge".toList

def printValue (value : Value) : Text := '%' :: outUnsigned value.id

def printBlockName (name : Text) : Text := '^' :: reference name

/-- `PrintQuoted`, between the quotes -/
def escape (path : Text) : Text :=
  path.flatMap fun c => if c = '"' ∨ c = '\\' then ['\\', c] else [c]

def printQuoted (text : Text) : Text := '"' :: (escape (reference text) ++ ['"'])

/-- What is printed with commas between -/
def printList : List Text → Text
  | [] => []
  | [text] => text
  | text :: texts => text ++ ", ".toList ++ printList texts

/-! ## Instructions -/

/-- The file and the line that were printed last -/
structure Position where
  file : Nat := 0
  line : Nat := 0

namespace Instruction

/-- An operand of an instruction -/
def operand (i : Instruction) (index : Nat) : Value := i.operands.getD index {}

end Instruction

/-- The alignment of an instruction that has one -/
def printAlignment (i : Instruction) : Text :=
  if i.alignment ≠ 0 then " align ".toList ++ outUnsigned i.alignment else []

/-- The name, the type and two operands -/
def printBinary (i : Instruction) : Text :=
  opcodeName i.opcode ++ " ".toList ++ typeName i.type ++ " ".toList ++ printValue (i.operand 0) ++
    ", ".toList ++ printValue (i.operand 1) ++ "\n".toList

/-- The name, a predicate, the type and two operands -/
def printComparison (predicate : Text) (i : Instruction) : Text :=
  opcodeName i.opcode ++ " ".toList ++ predicate ++ " ".toList ++ typeName i.type ++ " ".toList ++
    printValue (i.operand 0) ++ ", ".toList ++ printValue (i.operand 1) ++ "\n".toList

/-- The name, the type of the operand, the operand and the type -/
def printConversion (i : Instruction) : Text :=
  opcodeName i.opcode ++ " ".toList ++ typeName (i.operand 0).type ++ " ".toList ++
    printValue (i.operand 0) ++ " to ".toList ++ typeName i.type ++ "\n".toList

/-- An argument of a call -/
def printArgument (operand : Value) : Text :=
  typeName operand.type ++ " ".toList ++ printValue operand

/-- The `switch` of `PrintInstruction` -/
def printOperation (i : Instruction) : Text :=
  match i.opcode with
  | .const =>
      "const ".toList ++ typeName i.type ++ " ".toList ++ outSigned i.immediate ++ "\n".toList
  | .fconst =>
      "fconst ".toList ++ typeName i.type ++ " ".toList ++ outSigned i.immediate ++
        (if i.type = .f128 then ", ".toList ++ outSigned i.immediateHigh else []) ++ "\n".toList
  | .local =>
      "local ".toList ++ typeName i.type ++
        (if i.immediate > 1 then ", ".toList ++ outSigned i.immediate else []) ++ printAlignment i ++
        (if i.name ≠ [] then " ; ".toList ++ reference i.name else []) ++ "\n".toList
  | .load =>
      "load ".toList ++ typeName i.type ++ ", ".toList ++ printValue (i.operand 0) ++
        printAlignment i ++ "\n".toList
  | .store =>
      "store ".toList ++ typeName i.type ++ " ".toList ++ printValue (i.operand 0) ++ ", ".toList ++
        printValue (i.operand 1) ++ printAlignment i ++ "\n".toList
  | .mov | .add | .sub | .mul | .sdiv | .udiv | .srem | .urem | .and | .or | .xor | .shl | .ashr
  | .lshr =>
      opcodeName i.opcode ++ " ".toList ++ typeName i.type ++ " ".toList ++
        printValue (i.operand 0) ++
        (if i.operands.length > 1 then ", ".toList ++ printValue (i.operand 1) else []) ++ "\n".toList
  | .ptradd | .fadd | .fsub | .fmul | .fdiv => printBinary i
  | .icmp => printComparison (predicateName i.predicate) i
  | .fcmp => printComparison (floatPredicateName i.floatPredicate) i
  | .zext | .sext | .trunc | .inttoptr | .ptrtoint | .sitofp | .uitofp | .fptosi | .fptoui | .fpext
  | .fptrunc => printConversion i
  | .globaladdr => "globaladdr @".toList ++ reference i.name ++ "\n".toList
  | .call =>
      "call ".toList ++ typeName i.type ++ " @".toList ++ reference i.callee ++ "(".toList ++
        printList (i.operands.map printArgument) ++ ")\n".toList
  | .jmp =>
      "jmp ".toList ++
        (if i.operands.length ≠ 0 then
          "i1 ".toList ++ printValue (i.operand 0) ++ ", ".toList ++ printBlockName i.target ++
            ", ".toList ++ printBlockName i.targetFalse
        else printBlockName i.target) ++ "\n".toList
  | .ret =>
      "ret ".toList ++ typeName i.type ++
        (if i.type ≠ .void then " ".toList ++ printValue (i.operand 0) else []) ++ "\n".toList

/-- The file and the line of an instruction where they are not those that were printed last -/
def printPosition (i : Instruction) (p : Position) : Text :=
  (if i.debugFile ≠ 0 ∧ i.debugFile ≠ p.file then
    "    file ".toList ++ outUnsigned i.debugFile ++ "\n".toList else []) ++
  (if i.debugLine ≠ 0 ∧ i.debugLine ≠ p.line then
    "    line ".toList ++ outUnsigned i.debugLine ++ "\n".toList else [])

/-- The position that was printed last, behind an instruction -/
def Position.after (p : Position) (i : Instruction) : Position :=
  { file := if i.debugFile ≠ 0 ∧ i.debugFile ≠ p.file then i.debugFile else p.file
    line := if i.debugLine ≠ 0 ∧ i.debugLine ≠ p.line then i.debugLine else p.line }

def printInstruction (i : Instruction) (p : Position) : Text :=
  printPosition i p ++
    (if i.debugSource ≠ [] then "    ; ".toList ++ reference i.debugSource ++ "\n".toList else []) ++
    "    ".toList ++ (if i.hasResult then printValue i.result ++ " = ".toList else []) ++
    printOperation i

/-! ## Functions and modules -/

def printInstructions (p : Position) : List Instruction → Text
  | [] => []
  | i :: is => printInstruction i p ++ printInstructions (p.after i) is

def printBlocks (p : Position) : List BasicBlock → Text
  | [] => []
  | block :: blocks =>
      printBlockName block.name ++ ":\n".toList ++ printInstructions p block.instructions ++
        printBlocks (block.instructions.foldl Position.after p) blocks

def printParameter (parameter : Parameter) : Text :=
  typeName parameter.value.type ++ " ".toList ++ printValue parameter.value ++
    (if parameter.aggregateGroup ≠ 0 then
      " abiagg ".toList ++ outUnsigned parameter.aggregateGroup else [])

/-- `internal` before what only the module sees -/
def printLinkage (linkage : Linkage) : Text :=
  if linkage = .internal then "internal ".toList else []

def printFunction (f : Function) : Text :=
  printLinkage f.linkage ++ "func @".toList ++ reference f.name ++ "(".toList ++
    printList (f.parameters.map printParameter) ++
    (if f.isVariadic then (if f.parameters.length ≠ 0 then ", ...".toList else "...".toList) else []) ++
    ") -> ".toList ++ typeName f.returnType ++ " \x7b\n".toList ++ printBlocks {} f.blocks ++ "\x7d\n".toList

def printSource (source : SourceFile) : Text :=
  "source ".toList ++ outUnsigned source.id ++ " ".toList ++ printQuoted source.path ++ "\n".toList

/-- The keyword, the name, the type and the number of elements of a global -/
def printGlobalHead (g : Global) : Text :=
  (if g.isReadOnly then "constant".toList else "global".toList) ++ " @".toList ++ reference g.name ++
    " ".toList ++ typeName g.type ++
    (if g.elementCount > 1 then ", ".toList ++ outSigned g.elementCount else [])

def printGlobal (g : Global) : Text :=
  if g.isDeclaration then "declare ".toList ++ printGlobalHead g ++ "\n".toList
  else
    printLinkage g.linkage ++ printGlobalHead g ++ " = ".toList ++
      (if g.initializerValues.length ≠ 0 then
        "\x7b".toList ++ printList (g.initializerValues.map outSigned) ++ "\x7d\n".toList
      else
        outSigned g.initializer ++
          (if g.type = .f128 then ", ".toList ++ outSigned g.initializerHigh else []) ++ "\n".toList)

/-- `Print`, which never fails -/
def print (m : Module) : Text :=
  (if m.pointerBits ≠ 0 then "target ptrbits ".toList ++ outUnsigned m.pointerBits ++ "\n".toList
    else []) ++
    m.sourceFiles.flatMap printSource ++ m.globals.flatMap printGlobal ++
    m.functions.flatMap printFunction

end Unisym.Lango
