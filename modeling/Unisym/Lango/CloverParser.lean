/-
# `CloverParser` — `clover::Parse`

The parser of the source goes down its grammar with one token in hand; here every function gets
the tokens that are left and gives them back.  Nothing is the error: the source prints a message
and fails as a whole.
-/
import Mathlib.Algebra.Group.Int.Defs
import Mathlib.Algebra.Group.Nat.Defs
import Unisym.Lango.CloverLexer

namespace Unisym.Lango

/-- The tokens that are left, the one in hand first; behind the last they are empty. -/
abbrev Tokens := List Text

/-! ## Reading tokens -/

/-- The token in hand -/
def token (ts : Tokens) : Text := ts.headD []

/-- What the source asks before it goes on; otherwise it is an error. -/
def check (b : Bool) : Option Unit := if b then some () else none

def is (ts : Tokens) (text : String) : Bool := reference (token ts) = text.toList

def expect (text : String) (ts : Tokens) : Option Tokens := if is ts text then some ts.tail else none

def readName (ts : Tokens) : Option (Text × Tokens) :=
  if (token ts).isEmpty then none else some (token ts, ts.tail)

/-- The names of the types -/
def tyNames : List (String × Ty) :=
  [("void", .void), ("i1", .i1), ("i8", .i8), ("i16", .i16), ("i32", .i32), ("i64", .i64),
    ("f32", .f32), ("f64", .f64), ("f128", .f128), ("ptr", .ptr)]

/-- The first entry with the name in hand -/
def readKeyword {α : Type} (names : List (String × α)) (ts : Tokens) : Option (α × Tokens) :=
  (names.find? fun entry => is ts entry.1).map fun entry => (entry.2, ts.tail)

def readType (ts : Tokens) : Option (Ty × Tokens) := readKeyword tyNames ts

/-- A word of 64 bits with a sign -/
def toSigned (n : Int) : Int := n.bmod (2 ^ 64)

/-- The digits of `atoins`, at most so many -/
def atoinsDigits : (fuel : Nat) → Int → Text → Int
  | 0, inst, _ => inst
  | _, inst, [] => inst
  | fuel + 1, inst, ch :: rest =>
      if ch.isDigit then atoinsDigits fuel (toSigned (inst * 10 + (ch.toNat - 48 : Nat))) rest
      else inst

/-- `atoins`, with words of 64 bits -/
def atoins (text : Text) : Int :=
  match text with
  | '-' :: rest => toSigned (-atoinsDigits 20 0 rest)
  | '+' :: rest => atoinsDigits 20 0 rest
  | rest => atoinsDigits 20 0 rest

def readNumber (ts : Tokens) : Option (Int × Tokens) :=
  if (token ts).isEmpty then none else some (atoins (reference (token ts)), ts.tail)

def readDebugNumber (ts : Tokens) : Option (Nat × Tokens) := do
  let (parsed, ts) ← readNumber ts
  check (0 < parsed)
  some ((parsed % 2 ^ 32).toNat, ts)

def readOptionalAlignment (ts : Tokens) : Option (Nat × Tokens) :=
  if !is ts "align" then some (0, ts)
  else do
    let (alignment, ts) ← readNumber ts.tail
    check (0 < alignment && alignment.toNat &&& (alignment.toNat - 1) = 0)
    some (alignment.toNat, ts)

def readResultID (ts : Tokens) : Option (Nat × Tokens) := do
  let ts ← expect "%" ts
  let (parsed, ts) ← readNumber ts
  check (0 ≤ parsed)
  some ((parsed % 2 ^ 32).toNat, ts)

def findValue (definitions : List Value) (id : Nat) : Option Value :=
  definitions.find? fun defined => defined.id = id

def readValue (definitions : List Value) (ts : Tokens) : Option (Value × Tokens) := do
  let (id, ts) ← readResultID ts
  let value ← findValue definitions id
  some (value, ts)

def readBlockName (ts : Tokens) : Option (Text × Tokens) := do
  let ts ← expect "^" ts
  readName ts

def define (definitions : List Value) (value : Value) : Option (List Value) :=
  if definitions.any fun defined => defined.id = value.id then none
  else some (definitions ++ [value])

/-- The names of the comparisons of integers -/
def predicateNames : List (String × ICmpPredicate) :=
  [("eq", .eq), ("ne", .ne), ("slt", .slt), ("sle", .sle), ("sgt", .sgt), ("sge", .sge),
    ("ult", .ult), ("ule", .ule), ("ugt", .ugt), ("uge", .uge)]

def readPredicate (ts : Tokens) : Option (ICmpPredicate × Tokens) := readKeyword predicateNames ts

/-- The names of the comparisons of floats -/
def floatPredicateNames : List (String × FCmpPredicate) :=
  [("eq", .eq), ("ne", .ne), ("lt", .lt), ("le", .le), ("gt", .gt), ("ge", .ge)]

def readFloatPredicate (ts : Tokens) : Option (FCmpPredicate × Tokens) :=
  readKeyword floatPredicateNames ts

def readBinaryOperands (definitions : List Value) (ts : Tokens) :
    Option ((Value × Value) × Tokens) := do
  let (left, ts) ← readValue definitions ts
  let ts ← expect "," ts
  let (right, ts) ← readValue definitions ts
  some ((left, right), ts)

/-- The loop of `ReadCallOperands`; the first argument bounds its iterations. -/
def readOperands (definitions : List Value) : (fuel : Nat) → Tokens → Option (List Value × Tokens)
  | 0, _ => none
  | fuel + 1, ts =>
      if is ts ")" then some ([], ts)
      else do
        let (type, ts) ← readType ts
        let (value, ts) ← readValue definitions ts
        check (value.type = type)
        if is ts ")" then some ([value], ts)
        else
          let ts ← expect "," ts
          let (values, ts) ← readOperands definitions fuel ts
          some (value :: values, ts)

def readCallOperands (definitions : List Value) (ts : Tokens) : Option (List Value × Tokens) := do
  let ts ← expect "(" ts
  let (operands, ts) ← readOperands definitions (ts.length + 1) ts
  let ts ← expect ")" ts
  some (operands, ts)

/-! ## Instructions

What is read behind the name of an opcode; `i` has what was read before it. -/

/-- The type of the result -/
def Instruction.withResult (i : Instruction) (type : Ty) : Instruction :=
  { i with result := { i.result with type := type } }

variable (definitions : List Value) (i : Instruction)

def parseConst (ts : Tokens) : Option (Instruction × Tokens) := do
  check i.hasResult
  let (type, ts) ← readType ts
  let (immediate, ts) ← readNumber ts
  check type.isInteger
  some ({ i with opcode := .const, type, immediate }.withResult type, ts)

def parseFConst (ts : Tokens) : Option (Instruction × Tokens) := do
  check i.hasResult
  let (type, ts) ← readType ts
  let (immediate, ts) ← readNumber ts
  check type.isFloat
  check !(type = .f32 && (immediate < -2 ^ 31 || 0 ≤ immediate && immediate > 2 ^ 32 - 1))
  if type = .f128 then
    let ts ← expect "," ts
    let (immediateHigh, ts) ← readNumber ts
    some ({ i with opcode := .fconst, type, immediate, immediateHigh }.withResult type, ts)
  else some ({ i with opcode := .fconst, type, immediate }.withResult type, ts)

/-- The number of elements of a local -/
def readElementCount (ts : Tokens) : Option (Int × Tokens) :=
  if is ts "," then do
    let (immediate, ts) ← readNumber ts.tail
    check (0 < immediate)
    some (immediate, ts)
  else some (1, ts)

def parseLocal (ts : Tokens) : Option (Instruction × Tokens) := do
  check i.hasResult
  let (type, ts) ← readType ts
  let (immediate, ts) ← readElementCount ts
  let (alignment, ts) ← readOptionalAlignment ts
  some ({ i with opcode := .local, type, immediate, alignment }.withResult .ptr, ts)

def parseLoad (ts : Tokens) : Option (Instruction × Tokens) := do
  check i.hasResult
  let (type, ts) ← readType ts
  let ts ← expect "," ts
  let (address, ts) ← readValue definitions ts
  check (address.type = .ptr && type ≠ .void)
  let (alignment, ts) ← readOptionalAlignment ts
  some ({ i with opcode := .load, type, operands := [address], alignment }.withResult type, ts)

def parseStore (ts : Tokens) : Option (Instruction × Tokens) := do
  check !i.hasResult
  let (type, ts) ← readType ts
  let ((left, right), ts) ← readBinaryOperands definitions ts
  check (type ≠ .void && left.type = type && right.type = .ptr)
  let (alignment, ts) ← readOptionalAlignment ts
  some ({ i with opcode := .store, type, operands := [left, right], alignment }, ts)

def parseMov (ts : Tokens) : Option (Instruction × Tokens) := do
  check i.hasResult
  let (type, ts) ← readType ts
  let (operand, ts) ← readValue definitions ts
  check (operand.type = type && type ≠ .void)
  some ({ i with opcode := .mov, type, operands := [operand] }.withResult type, ts)

/-- The shifts, whose second operand may be of another type -/
def Opcode.isShift : Opcode → Bool
  | shl | ashr | lshr => true
  | _ => false

def parseBinary (opcode : Opcode) (ts : Tokens) : Option (Instruction × Tokens) := do
  check i.hasResult
  let (type, ts) ← readType ts
  let ((left, right), ts) ← readBinaryOperands definitions ts
  check (type.isInteger && left.type = type &&
    if opcode.isShift then right.type.isInteger else right.type = type)
  some ({ i with opcode, type, operands := [left, right] }.withResult type, ts)

def parseFloatBinary (opcode : Opcode) (ts : Tokens) : Option (Instruction × Tokens) := do
  check i.hasResult
  let (type, ts) ← readType ts
  let ((left, right), ts) ← readBinaryOperands definitions ts
  check (type.isFloat && left.type = type && right.type = type)
  some ({ i with opcode, type, operands := [left, right] }.withResult type, ts)

def parsePtrAdd (ts : Tokens) : Option (Instruction × Tokens) := do
  check i.hasResult
  let (type, ts) ← readType ts
  let ((left, right), ts) ← readBinaryOperands definitions ts
  check (left.type = .ptr && right.type.isInteger)
  some ({ i with opcode := .ptradd, type, operands := [left, right] }.withResult .ptr, ts)

def parseICmp (ts : Tokens) : Option (Instruction × Tokens) := do
  check i.hasResult
  let (predicate, ts) ← readPredicate ts
  let (type, ts) ← readType ts
  let ((left, right), ts) ← readBinaryOperands definitions ts
  check ((type.isInteger || type = .ptr) && left.type = type && right.type = type)
  check !(type = .ptr && predicate ≠ .eq && predicate ≠ .ne)
  some ({ i with opcode := .icmp, type, operands := [left, right], predicate }.withResult .i1, ts)

def parseFCmp (ts : Tokens) : Option (Instruction × Tokens) := do
  check i.hasResult
  let (floatPredicate, ts) ← readFloatPredicate ts
  let (type, ts) ← readType ts
  let ((left, right), ts) ← readBinaryOperands definitions ts
  check (type.isFloat && left.type = type && right.type = type)
  some ({ i with opcode := .fcmp, type, operands := [left, right], floatPredicate }.withResult .i1, ts)

/-- A conversion: the type of the operand, the operand, and the type of the result -/
def readConversion (ts : Tokens) : Option ((Ty × Value × Ty) × Tokens) := do
  let (sourceType, ts) ← readType ts
  let (operand, ts) ← readValue definitions ts
  let ts ← expect "to" ts
  let (type, ts) ← readType ts
  some ((sourceType, operand, type), ts)

/-- The instruction of a conversion whose types are as the opcode wants them -/
def parseConversion (fits : Ty → Ty → Bool) (opcode : Opcode) (ts : Tokens) :
    Option (Instruction × Tokens) := do
  check i.hasResult
  let ((sourceType, operand, type), ts) ← readConversion definitions ts
  check (operand.type = sourceType && fits sourceType type)
  some ({ i with opcode, type, operands := [operand] }.withResult type, ts)

/-- `zext`, `sext` and `trunc`: nothing is asked of the two types. -/
def parseIntegerConversion (opcode : Opcode) (ts : Tokens) : Option (Instruction × Tokens) :=
  parseConversion definitions i (fun _ _ => true) opcode ts

/-- The types of `inttoptr` and `ptrtoint` -/
def pointerConversionFits : Opcode → Ty → Ty → Bool
  | .inttoptr, source, destination => source.isInteger && destination = .ptr
  | _, source, destination => source = .ptr && destination.isInteger

def parsePointerConversion (opcode : Opcode) (ts : Tokens) : Option (Instruction × Tokens) :=
  parseConversion definitions i (pointerConversionFits opcode) opcode ts

/-- The types of the conversions from and to floats -/
def floatConversionFits : Opcode → Ty → Ty → Bool
  | .sitofp, source, destination | .uitofp, source, destination =>
      source.isInteger && destination.isFloat
  | .fptosi, source, destination | .fptoui, source, destination =>
      source.isFloat && destination.isInteger
  | .fpext, source, destination =>
      source.isFloat && destination.isFloat && source.floatBits < destination.floatBits
  | _, source, destination =>
      source.isFloat && destination.isFloat && destination.floatBits < source.floatBits

def parseFloatConversion (opcode : Opcode) (ts : Tokens) : Option (Instruction × Tokens) :=
  parseConversion definitions i (floatConversionFits opcode) opcode ts

def parseGlobalAddr (ts : Tokens) : Option (Instruction × Tokens) := do
  check i.hasResult
  let ts ← expect "@" ts
  let (name, ts) ← readName ts
  some ({ i with opcode := .globaladdr, type := .ptr, name }.withResult .ptr, ts)

def parseCall (ts : Tokens) : Option (Instruction × Tokens) := do
  let (type, ts) ← readType ts
  let ts ← expect "@" ts
  let (callee, ts) ← readName ts
  let (operands, ts) ← readCallOperands definitions ts
  check (decide (type = .void) ≠ i.hasResult)
  some ({ i with opcode := .call, type, callee, operands }.withResult type, ts)

def parseJmp (ts : Tokens) : Option (Instruction × Tokens) := do
  check !i.hasResult
  if is ts "^" then
    let (target, ts) ← readBlockName ts
    some ({ i with opcode := .jmp, target }, ts)
  else
    let (type, ts) ← readType ts
    check (type = .i1)
    let (condition, ts) ← readValue definitions ts
    let ts ← expect "," ts
    let (target, ts) ← readBlockName ts
    let ts ← expect "," ts
    let (targetFalse, ts) ← readBlockName ts
    check (condition.type = .i1)
    some ({ i with opcode := .jmp, type, operands := [condition], target, targetFalse }, ts)

def parseRet (ts : Tokens) : Option (Instruction × Tokens) := do
  check !i.hasResult
  let (type, ts) ← readType ts
  if type = .void then some ({ i with opcode := .ret, type }, ts)
  else
    let (operand, ts) ← readValue definitions ts
    some ({ i with opcode := .ret, type, operands := [operand] }, ts)

/-- The names of the opcodes, each with what reads the rest of its instruction -/
def instructionForms : List (String × (Tokens → Option (Instruction × Tokens))) :=
  [("const", parseConst i), ("fconst", parseFConst i), ("local", parseLocal i),
    ("load", parseLoad definitions i), ("store", parseStore definitions i),
    ("mov", parseMov definitions i),
    ("add", parseBinary definitions i .add), ("sub", parseBinary definitions i .sub),
    ("mul", parseBinary definitions i .mul), ("sdiv", parseBinary definitions i .sdiv),
    ("udiv", parseBinary definitions i .udiv), ("srem", parseBinary definitions i .srem),
    ("urem", parseBinary definitions i .urem), ("and", parseBinary definitions i .and),
    ("or", parseBinary definitions i .or), ("xor", parseBinary definitions i .xor),
    ("shl", parseBinary definitions i .shl), ("ashr", parseBinary definitions i .ashr),
    ("lshr", parseBinary definitions i .lshr),
    ("fadd", parseFloatBinary definitions i .fadd), ("fsub", parseFloatBinary definitions i .fsub),
    ("fmul", parseFloatBinary definitions i .fmul), ("fdiv", parseFloatBinary definitions i .fdiv),
    ("ptradd", parsePtrAdd definitions i), ("icmp", parseICmp definitions i),
    ("fcmp", parseFCmp definitions i),
    ("zext", parseIntegerConversion definitions i .zext),
    ("sext", parseIntegerConversion definitions i .sext),
    ("trunc", parseIntegerConversion definitions i .trunc),
    ("inttoptr", parsePointerConversion definitions i .inttoptr),
    ("ptrtoint", parsePointerConversion definitions i .ptrtoint),
    ("sitofp", parseFloatConversion definitions i .sitofp),
    ("uitofp", parseFloatConversion definitions i .uitofp),
    ("fptosi", parseFloatConversion definitions i .fptosi),
    ("fptoui", parseFloatConversion definitions i .fptoui),
    ("fpext", parseFloatConversion definitions i .fpext),
    ("fptrunc", parseFloatConversion definitions i .fptrunc),
    ("globaladdr", parseGlobalAddr i), ("call", parseCall definitions i),
    ("jmp", parseJmp definitions i), ("ret", parseRet definitions i)]

/-- What is behind the name of the operation; another name is an unknown opcode. -/
def parseOperation (ts : Tokens) : Option (Instruction × Tokens) := do
  let (operation, ts) ← readName ts
  let form ← (instructionForms definitions i).find? fun form => reference operation = form.1.toList
  form.2 ts

/-! ## Blocks and functions -/

/-- What the parser keeps within a function: the values so far, and the position -/
structure Scope where
  definitions : List Value := []
  debugFile : Nat := 0
  debugLine : Nat := 0

/-- The positions before an instruction; the first argument bounds their number. -/
def parsePositions (scope : Scope) : (fuel : Nat) → Tokens → Option (Scope × Tokens)
  | 0, _ => none
  | fuel + 1, ts =>
      if is ts "file" then do
        let (value, ts) ← readDebugNumber ts.tail
        parsePositions { scope with debugFile := value } fuel ts
      else if is ts "line" then do
        let (value, ts) ← readDebugNumber ts.tail
        parsePositions { scope with debugLine := value } fuel ts
      else some (scope, ts)

/-- The result before an instruction, if it has one -/
def parseResult (ts : Tokens) : Option (Option Nat × Tokens) :=
  if is ts "%" then do
    let (resultId, ts) ← readResultID ts
    let ts ← expect "=" ts
    some (some resultId, ts)
  else some (none, ts)

/-- The instruction with the number of its result, and the values after it -/
def defineResult (definitions : List Value) (i : Instruction) :
    Option Nat → Option (Instruction × List Value)
  | none => some (i, definitions)
  | some id => do
      let i := { i with result := { i.result with id := id } }
      let definitions ← define definitions i.result
      some (i, definitions)

def parseInstruction (scope : Scope) (ts : Tokens) : Option ((Instruction × Scope) × Tokens) := do
  let (scope, ts) ← parsePositions scope (ts.length + 1) ts
  let (resultId, ts) ← parseResult ts
  let (instruction, ts) ← parseOperation scope.definitions
    { hasResult := resultId.isSome, debugFile := scope.debugFile, debugLine := scope.debugLine } ts
  let (instruction, definitions) ← defineResult scope.definitions instruction resultId
  some ((instruction, { scope with definitions }), ts)

/-- The instructions of a block; the first argument bounds their number. -/
def parseInstructions (scope : Scope) :
    (fuel : Nat) → Tokens → Option ((List Instruction × Scope) × Tokens)
  | 0, _ => none
  | fuel + 1, ts =>
      if (token ts).isEmpty || is ts "^" || is ts "\x7d" then some (([], scope), ts)
      else do
        let ((instruction, scope), ts) ← parseInstruction scope ts
        let ((instructions, scope), ts) ← parseInstructions scope fuel ts
        some ((instruction :: instructions, scope), ts)

def parseBlock (scope : Scope) (ts : Tokens) : Option ((BasicBlock × Scope) × Tokens) := do
  let ts ← expect "^" ts
  let (name, ts) ← readName ts
  let ts ← expect ":" ts
  let ((instructions, scope), ts) ← parseInstructions scope (ts.length + 1) ts
  some ((⟨name, instructions⟩, scope), ts)

/-- The blocks of a function; the first argument bounds their number. -/
def parseBlocks (scope : Scope) : (fuel : Nat) → Tokens → Option (List BasicBlock × Tokens)
  | 0, _ => none
  | fuel + 1, ts =>
      if !is ts "^" then some ([], ts)
      else do
        let ((block, scope), ts) ← parseBlock scope ts
        let (blocks, ts) ← parseBlocks scope fuel ts
        some (block :: blocks, ts)

/-- The group of a parameter that belongs to an aggregate -/
def parseAggregateGroup (ts : Tokens) : Option (Nat × Tokens) :=
  if is ts "abiagg" then do
    let (group, ts) ← readNumber ts.tail
    check (0 < group)
    some ((group % 2 ^ 32).toNat, ts)
  else some (0, ts)

/-- What the parameters of a function are read to -/
structure Parameters where
  parameters : List Parameter := []
  isVariadic : Bool := false

/-- The parameters up to the bracket; the first argument bounds their number. -/
def parseParameters (definitions : List Value) :
    (fuel : Nat) → Tokens → Option ((Parameters × List Value) × Tokens)
  | 0, _ => none
  | fuel + 1, ts =>
      if is ts ")" then some (({}, definitions), ts)
      else if is ts "..." then
        if is ts.tail ")" then some (({ isVariadic := true }, definitions), ts.tail) else none
      else do
        let (type, ts) ← readType ts
        let (id, ts) ← readResultID ts
        let definitions ← define definitions ⟨type, id⟩
        let (aggregateGroup, ts) ← parseAggregateGroup ts
        let parameter : Parameter := ⟨⟨type, id⟩, aggregateGroup⟩
        if is ts ")" then some (({ parameters := [parameter] }, definitions), ts)
        else
          let ts ← expect "," ts
          let ((rest, definitions), ts) ← parseParameters definitions fuel ts
          some (({ rest with parameters := parameter :: rest.parameters }, definitions), ts)

/-- Two names that `StrCompare` takes for the same -/
def sameName (a b : Text) : Bool := reference a = reference b

/-- The check for duplicate block names -/
def blockNamesDistinct : List BasicBlock → Bool
  | [] => true
  | block :: rest => rest.all (fun other => !sameName block.name other.name) && blockNamesDistinct rest

/-- The check of the targets of one instruction; only a jump has some. -/
def targetsFound (blocks : List BasicBlock) (i : Instruction) : Bool :=
  i.opcode ≠ .jmp ||
    (blocks.any fun candidate => sameName candidate.name i.target) &&
      (i.targetFalse.isEmpty || blocks.any fun candidate => sameName candidate.name i.targetFalse)

def parseFunction (linkage : Linkage) (ts : Tokens) : Option (Function × Tokens) := do
  let ts ← expect "func" ts
  let ts ← expect "@" ts
  let (name, ts) ← readName ts
  let ts ← expect "(" ts
  let ((parameters, definitions), ts) ← parseParameters [] (ts.length + 1) ts
  let ts ← expect ")" ts
  let ts ← expect "->" ts
  let (returnType, ts) ← readType ts
  let ts ← expect "\x7b" ts
  let (blocks, ts) ← parseBlocks { definitions } (ts.length + 1) ts
  let ts ← expect "\x7d" ts
  check (blockNamesDistinct blocks)
  check (blocks.all fun block => block.instructions.all (targetsFound blocks))
  some (⟨name, returnType, parameters.parameters, parameters.isVariadic, linkage, blocks⟩, ts)

/-! ## Modules -/

def parseSource (m : Module) (ts : Tokens) : Option (Module × Tokens) := do
  let ts ← expect "source" ts
  let (id, ts) ← readDebugNumber ts
  let (path, ts) ← readName ts
  check !m.sourceFiles.any fun previous => previous.id = id
  some ({ m with sourceFiles := m.sourceFiles ++ [⟨id, path⟩] }, ts)

def parseTarget (m : Module) (ts : Tokens) : Option (Module × Tokens) := do
  let ts ← expect "target" ts
  let ts ← expect "ptrbits" ts
  let (pointerBits, ts) ← readNumber ts
  check (pointerBits = 32 || pointerBits = 64)
  check (m.pointerBits = 0)
  some ({ m with pointerBits := pointerBits.toNat }, ts)

/-- The values between the braces of an initializer; the first argument bounds their number. -/
def parseValues : (fuel : Nat) → Tokens → Option (List Int × Tokens)
  | 0, _ => none
  | fuel + 1, ts =>
      if is ts "\x7d" then some ([], ts)
      else do
        let (value, ts) ← readNumber ts
        if is ts "\x7d" then some ([value], ts)
        else
          let ts ← expect "," ts
          let (values, ts) ← parseValues fuel ts
          some (value :: values, ts)

/-- The initializer of a global -/
def parseInitializer (g : Global) (ts : Tokens) : Option (Global × Tokens) := do
  let ts ← expect "=" ts
  if is ts "\x7b" then
    let (initializerValues, ts) ← parseValues ts.length ts.tail
    let ts ← expect "\x7d" ts
    check ((initializerValues.length : Int) = g.elementCount)
    some ({ g with initializerValues }, ts)
  else
    let (initializer, ts) ← readNumber ts
    if g.type = .f128 then
      let ts ← expect "," ts
      let (initializerHigh, ts) ← readNumber ts
      some ({ g with initializer, initializerHigh }, ts)
    else some ({ g with initializer }, ts)

def parseGlobal (isReadOnly : Bool) (linkage : Linkage) (isDeclaration : Bool) (m : Module)
    (ts : Tokens) : Option (Module × Tokens) := do
  let ts ← expect (if isReadOnly then "constant" else "global") ts
  let ts ← expect "@" ts
  let (name, ts) ← readName ts
  let (type, ts) ← readType ts
  check (type ≠ .void)
  let (elementCount, ts) ← readElementCount ts
  let g : Global := { name, type, elementCount, isDeclaration, isReadOnly, linkage }
  if isDeclaration then some ({ m with globals := m.globals ++ [g] }, ts)
  else
    let (g, ts) ← parseInitializer g ts
    some ({ m with globals := m.globals ++ [g] }, ts)

/-- The function that `ParseFunction` appends -/
def parseModuleFunction (linkage : Linkage) (m : Module) (ts : Tokens) : Option (Module × Tokens) := do
  let (function, ts) ← parseFunction linkage ts
  some ({ m with functions := m.functions ++ [function] }, ts)

/-- One declaration of a module -/
def parseItem (m : Module) (ts : Tokens) : Option (Module × Tokens) :=
  if is ts "target" then parseTarget m ts
  else if is ts "source" then parseSource m ts
  else if is ts "internal" then
    if is ts.tail "global" || is ts.tail "constant" then
      parseGlobal (is ts.tail "constant") .internal false m ts.tail
    else if is ts.tail "func" then parseModuleFunction .internal m ts.tail
    else none
  else if is ts "declare" then
    if !is ts.tail "global" && !is ts.tail "constant" then none
    else parseGlobal (is ts.tail "constant") .external true m ts.tail
  else if is ts "global" || is ts "constant" then
    parseGlobal (is ts "constant") .external false m ts
  else parseModuleFunction .external m ts

/-- The loop of `ParseModule`; the first argument bounds the number of declarations. -/
def parseItems (m : Module) : (fuel : Nat) → Tokens → Option Module
  | 0, _ => none
  | fuel + 1, ts =>
      if (token ts).isEmpty then some m
      else do
        let (m, ts) ← parseItem m ts
        parseItems m fuel ts

def parseModule (ts : Tokens) : Option Module := parseItems {} (ts.length + 1) ts

def parse (text : Text) : Option Module := parseModule (lex text)

end Unisym.Lango
