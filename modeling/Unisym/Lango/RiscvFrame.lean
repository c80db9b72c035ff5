/-
# `RiscvFrame` — the stack frames of the RISC-V backend

`BuildLayout` gives every value of a function its place below `s0`: a result is spilled to a slot, a `Local` is an
object whose address is computed again where it is wanted.  The functions under it write the loads and stores that
reach these places.

Offsets are the words of the source; they count downwards from `s0`.  What is written is a list of lines, and nothing
where the source fails.
-/
import Mathlib.Algebra.GroupWithZero.Nat
import Unisym.Lango.Clover

namespace Unisym.Lango.Riscv

abbrev Stdsint := BitVec 64

inductive RISCVABI where
  | lp64 | lp64f | lp64d
deriving DecidableEq, Repr

structure RISCVTargetInfo where
  bits : Nat := 64
  extensionI : Bool := true
  extensionM : Bool := true
  extensionF : Bool := false
  extensionD : Bool := false
  abi : RISCVABI := .lp64
deriving DecidableEq, Repr

def typeBits (target : RISCVTargetInfo) : Ty → Nat
  | .void => 0
  | .i1 => 1
  | .i8 => 8
  | .i16 => 16
  | .i32 | .f32 => 32
  | .i64 | .f64 => 64
  | .f128 => 128
  | .ptr => target.bits

def typeStorageBytes (target : RISCVTargetInfo) (type : Ty) : Nat := (typeBits target type + 7) / 8

/-! ## The assembly -/

/-- The integer registers that are named -/
inductive Reg where
  | ra | sp | s0 | t (n : Fin 7) | a (n : Fin 8)
deriving DecidableEq, Repr

scoped instance temporaryCount : NeZero 7 := ⟨by decide⟩

/-- The floating-point registers that are named -/
inductive FReg where
  | ft (n : Fin 12) | fa (n : Fin 8)
deriving DecidableEq, Repr

/-- The instructions that reach a frame; `other` is any other one that does not jump. -/
inductive Op where
  | addi (rd rs : Reg) (imm : Int)
  | addiw (rd rs : Reg) (imm : Int)
  | li (rd : Reg) (imm : Int)
  | mv (rd rs : Reg)
  | add (rd rs rs' : Reg)
  | sub (rd rs rs' : Reg)
  | ld (rd : Reg) (imm : Int) (base : Reg)
  | sd (rs : Reg) (imm : Int) (base : Reg)
  | fstore (double : Bool) (rs : FReg) (imm : Int) (base : Reg)
  | ret
  | other
deriving DecidableEq, Repr

/-! ## The layout -/

def alignOffset (offset alignment : Stdsint) : Stdsint := (offset + alignment - 1) &&& ~~~(alignment - 1)

def alignFrame (size : Stdsint) : Stdsint := (size + 15) &&& ~~~15

structure ValueSlot where
  defined : Bool := false
  valueOffset : Stdsint := 0
  localOffset : Stdsint := 0
deriving DecidableEq, Repr

structure FunctionLayout where
  slots : List ValueSlot := []
  frameSize : Stdsint := 0
deriving DecidableEq, Repr

/-- The instructions of a function, in the order of its blocks -/
def instructions (function : Function) : List Instruction := function.blocks.flatMap (·.instructions)

/-- The identifiers that are defined -/
def definedIds (function : Function) : List Nat :=
  function.parameters.map (·.value.id) ++
    ((instructions function).filter (·.hasResult)).map (·.result.id)

/-- `LargestValueID`, and whether there is one -/
def largestValueID (function : Function) : Option Nat := (definedIds function).max?

/-- What the loops of `BuildLayout` carry -/
structure Frame where
  slots : List ValueSlot
  offset : Stdsint
deriving DecidableEq, Repr

/-- The slot of a result or parameter: at least 8 bytes -/
def Frame.spill (target : RISCVTargetInfo) (value : Value) (frame : Frame) : Option Frame := do
  let slot ← frame.slots[value.id]?
  if slot.defined then none
  else
    let size := max (typeStorageBytes target value.type) 8
    let alignment := if size > 8 then 16 else 8
    let offset := alignOffset (frame.offset + BitVec.ofNat 64 size) alignment
    some ⟨frame.slots.set value.id { slot with defined := true, valueOffset := offset }, offset⟩

/-- The object of a `Local` -/
def Frame.reserve (target : RISCVTargetInfo) (i : Instruction) (frame : Frame) : Option Frame := do
  let slot ← frame.slots[i.result.id]?
  if slot.defined then none
  else
    let elementSize := BitVec.ofNat 64 (typeStorageBytes target i.type)
    let elementCount : Stdsint := if i.immediate > 0 then BitVec.ofInt 64 i.immediate else 1
    if elementSize = 0 ∨ elementCount.toInt ≤ 0 then none
    else
      let alignment := if i.alignment ≠ 0 then BitVec.ofNat 64 i.alignment else elementSize
      let offset := alignOffset (frame.offset + elementSize * elementCount) alignment
      some ⟨frame.slots.set i.result.id { slot with defined := true, localOffset := offset }, offset⟩

/-- One round of the loop over the instructions -/
def Frame.place (target : RISCVTargetInfo) (frame : Frame) (i : Instruction) : Option Frame :=
  if i.hasResult = false then some frame
  else if i.opcode = .local then frame.reserve target i
  else frame.spill target i.result

/-- The slots that `BuildLayout` starts from: the count is an `unsigned`. -/
def emptySlots (function : Function) : List ValueSlot :=
  List.replicate (match largestValueID function with
    | some largest => (largest + 1) % 2 ^ 32
    | none => 0) {}

def buildLayout (target : RISCVTargetInfo) (function : Function) : Option FunctionLayout := do
  let frame ← function.parameters.foldlM (fun frame p => frame.spill target p.value)
    ⟨emptySlots function, 16⟩
  let frame ← (instructions function).foldlM (Frame.place target) frame
  some ⟨frame.slots, alignFrame frame.offset⟩

/-! ## The accesses -/

def slotOf (layout : FunctionLayout) (value : Value) : Option ValueSlot :=
  layout.slots[value.id]?.filter (·.defined)

/-- The slot of a value that is not a `Local` -/
def valueOffsetOf (layout : FunctionLayout) (value : Value) : Option Stdsint :=
  ((slotOf layout value).map (·.valueOffset)).filter (· ≠ 0)

def fitsSignedImmediate12 (value : Stdsint) : Bool := value.toInt ≥ -2048 && value.toInt ≤ 2047

def emitFrameAddress (reg : Reg) (offset : Stdsint) : List Op :=
  if fitsSignedImmediate12 (-offset) then [.addi reg .s0 (-offset.toInt)]
  else [.li reg (-offset.toInt), .add reg .s0 reg]

def emitFrameStore (source : Reg) (offset : Stdsint) : List Op :=
  if fitsSignedImmediate12 (-offset) then [.sd source (-offset.toInt) .s0]
  else
    let address : Reg := if source ≠ .t 3 then .t 3 else .t 4
    emitFrameAddress address offset ++ [.sd source 0 address]

def emitFrameFloatStore (type : Ty) (source : FReg) (offset : Stdsint) : List Op :=
  let double := type ≠ .f32
  if fitsSignedImmediate12 (-offset) then [.fstore double source (-offset.toInt) .s0]
  else emitFrameAddress (.t 3) offset ++ [.fstore double source 0 (.t 3)]

def loadValue (layout : FunctionLayout) (value : Value) (reg : Reg) : Option (List Op) := do
  let slot ← slotOf layout value
  if slot.localOffset ≠ 0 then some (emitFrameAddress reg slot.localOffset)
  else if slot.valueOffset = 0 then none
  else if fitsSignedImmediate12 (-slot.valueOffset) then some [.ld reg (-slot.valueOffset.toInt) .s0]
  else some (emitFrameAddress reg slot.valueOffset ++ [.ld reg 0 reg])

/-! ## The registers of arguments -/

def abiFloatBits (target : RISCVTargetInfo) : Nat :=
  match target.abi with
  | .lp64 => 0
  | .lp64f => 32
  | .lp64d => 64

/-- The registers that are taken -/
structure Taken where
  integerCount : Nat := 0
  floatCount : Nat := 0
deriving DecidableEq, Repr

/-- Where an argument is passed -/
inductive Argument where
  | float (n : Fin 8)
  | integer (n : Fin 8)
  | wide (low high : Fin 8)
deriving DecidableEq, Repr

def allocateArgumentRegister (target : RISCVTargetInfo) (type : Ty) (taken : Taken) : Option (Argument × Taken) :=
  let n := taken.integerCount
  if h : (type.isFloat ∧ typeBits target type ≤ abiFloatBits target) ∧ taken.floatCount < 8 then
    some (.float ⟨taken.floatCount, h.2⟩, { taken with floatCount := taken.floatCount + 1 })
  else if type = .f128 then
    if h : n + 1 < 8 then
      some (.wide ⟨n, Nat.lt_of_succ_lt h⟩ ⟨n + 1, h⟩, { taken with integerCount := n + 2 })
    else none
  else if h : n < 8 then some (.integer ⟨n, h⟩, { taken with integerCount := n + 1 })
  else none

/-- The store of one parameter -/
def storeParameter (layout : FunctionLayout) (p : Parameter) (argument : Argument) : Option (List Op) :=
  (valueOffsetOf layout p.value).map fun offset =>
    match argument with
    | .float n => emitFrameFloatStore p.value.type (.fa n) offset
    | .wide low high => emitFrameStore (.a low) offset ++ emitFrameStore (.a high) (offset - 8)
    | .integer n =>
        (if p.value.type = .i32 then [.addiw (.a n) (.a n) 0] else []) ++ emitFrameStore (.a n) offset

/-- The loop of `EmitFunction` over the parameters -/
def storeParameters (target : RISCVTargetInfo) (layout : FunctionLayout) :
    Taken → List Parameter → Option (List Op)
  | _, [] => some []
  | taken, p :: ps => do
      let (argument, taken) ← allocateArgumentRegister target p.value.type taken
      let store ← storeParameter layout p argument
      let stores ← storeParameters target layout taken ps
      some (store ++ stores)

/-- What `EmitFunction` writes first -/
def emitPrologue (frameSize : Stdsint) : List Op :=
  if frameSize.toInt ≤ 2047 then
    [.addi .sp .sp (-frameSize.toInt), .sd .ra (frameSize - 8).toInt .sp,
      .sd .s0 (frameSize - 16).toInt .sp, .addi .s0 .sp frameSize.toInt]
  else
    [.mv (.t 1) .s0, .li (.t 0) frameSize.toInt, .sub .sp .sp (.t 0), .add .s0 .sp (.t 0),
      .sd .ra (-8) .s0, .sd (.t 1) (-16) .s0]

def emitEpilogue : List Op :=
  [.ld .ra (-8) .s0, .ld (.t 0) (-16) .s0, .mv .sp .s0, .mv .s0 (.t 0), .ret]

end Unisym.Lango.Riscv
