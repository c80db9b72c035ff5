/-
# `RiscvEncoder` — `RISCVEncoder::Encode`

An instruction is put into its word by shifts and bitwise or, as the source does it; a field
the format has no room for makes `Encode` fail.  Words are natural numbers: no field reaches
past bit 31.

`decode` reads a word by the formats of RV32I and RV64I, from the bit positions of each field.
It knows nothing of the encoder.
-/
import Unisym.Library.Packing

namespace Unisym.Lango

inductive RISCVOpcode where
  | none
  | lui | auipc | jal | jalr
  | beq | bne | blt | bge | bltu | bgeu
  | lb | lh | lw | lbu | lhu | lwu | ld
  | sb | sh | sw | sd
  | addi | slti | sltiu | xori | ori | andi | slli | srli | srai
  | add | sub | sll | slt | sltu | xor | srl | sra | or | and
  | addiw | slliw | srliw | sraiw
  | addw | subw | sllw | srlw | sraw
  | fence | ecall | ebreak
  deriving DecidableEq, Repr

def noSeg : Int := -1

/-- `RISCVValue`: `offset` is an `int64_t`. -/
structure RISCVValue where
  offset : Int
  sectionNo : Int
  wrt : Int
  unknown : Bool
  external : Bool
  deriving DecidableEq, Repr

/-- `RISCVOperand`, what the encoder reads of it. -/
structure RISCVOperand where
  reg : Nat
  value : RISCVValue
  deriving DecidableEq, Repr

structure RISCVInstruction where
  opcode : RISCVOpcode
  operands : Fin 3 → RISCVOperand

scoped instance operandCount : NeZero 3 := ⟨by decide⟩

/-- What the encoder reads of an `AssemblySession`. -/
structure AssemblySession where
  currentBits : Int
  /-- `Location.segment` -/
  segment : Int

namespace RISCVEncoder

def signedRange (value : Int) (bits : Nat) : Bool :=
  decide (-2 ^ (bits - 1) ≤ value) && decide (value < 2 ^ (bits - 1))

def requireImmediate (value : RISCVValue) : Option Int :=
  if value.unknown || value.external || value.sectionNo ≠ noSeg || value.wrt ≠ noSeg then .none
  else some value.offset

/-- `ResolveTarget`; the difference is one of 64-bit words. -/
def resolveTarget (session : AssemblySession) (value : RISCVValue) (offset : Int) : Option Int :=
  if value.unknown || value.external || value.wrt ≠ noSeg then .none
  else if value.sectionNo ≠ noSeg && value.sectionNo ≠ session.segment then .none
  else some ((value.offset - offset).bmod (2 ^ 64))

/-- The cast of an `int64_t` to `uint32_t`. -/
def word (immediate : Int) : Nat := (immediate % 2 ^ 32).toNat

def encodeR (opcode funct3 funct7 rd rs1 rs2 : Nat) : Nat :=
  opcode ||| rd <<< 7 ||| funct3 <<< 12 ||| rs1 <<< 15 ||| rs2 <<< 20 ||| funct7 <<< 25

def encodeI (opcode funct3 rd rs1 : Nat) (immediate : Int) : Nat :=
  opcode ||| rd <<< 7 ||| funct3 <<< 12 ||| rs1 <<< 15 ||| (word immediate &&& 0xfff) <<< 20

def encodeS (funct3 rs1 rs2 : Nat) (immediate : Int) : Nat :=
  let value := word immediate &&& 0xfff
  0x23 ||| (value &&& 0x1f) <<< 7 ||| funct3 <<< 12 ||| rs1 <<< 15 ||| rs2 <<< 20 |||
    (value >>> 5) <<< 25

def encodeB (funct3 rs1 rs2 : Nat) (immediate : Int) : Nat :=
  let value := word immediate &&& 0x1fff
  0x63 ||| ((value >>> 11) &&& 1) <<< 7 ||| ((value >>> 1) &&& 0xf) <<< 8 ||| funct3 <<< 12 |||
    rs1 <<< 15 ||| rs2 <<< 20 ||| ((value >>> 5) &&& 0x3f) <<< 25 ||| ((value >>> 12) &&& 1) <<< 31

def encodeJ (rd : Nat) (immediate : Int) : Nat :=
  let value := word immediate &&& 0x1fffff
  0x6f ||| rd <<< 7 ||| ((value >>> 12) &&& 0xff) <<< 12 ||| ((value >>> 11) &&& 1) <<< 20 |||
    ((value >>> 1) &&& 0x3ff) <<< 21 ||| ((value >>> 20) &&& 1) <<< 31

/-- The word of `Lui` and `Auipc`. -/
def encodeU (opcode rd : Nat) (immediate : Int) : Nat :=
  opcode ||| rd <<< 7 ||| (word immediate &&& 0xfffff) <<< 12

def requireIImmediate (operand : RISCVOperand) : Option Int :=
  (requireImmediate operand.value).bind fun immediate =>
    if !signedRange immediate 12 then .none else some immediate

def requireRV64 (session : AssemblySession) : Bool := session.currentBits = 64

/-! ## The function codes -/

def branchFunct3 : RISCVOpcode → Nat
  | .beq => 0
  | .bne => 1
  | .blt => 4
  | .bge => 5
  | .bltu => 6
  | _ => 7

def loadFunct3 : RISCVOpcode → Nat
  | .lb => 0
  | .lh => 1
  | .lw => 2
  | .ld => 3
  | .lbu => 4
  | .lhu => 5
  | _ => 6

def storeFunct3 : RISCVOpcode → Nat
  | .sb => 0
  | .sh => 1
  | .sw => 2
  | _ => 3

def immediateFunct3 : RISCVOpcode → Nat
  | .addi => 0
  | .slti => 2
  | .sltiu => 3
  | .xori => 4
  | .ori => 6
  | _ => 7

def registerFunct3 : RISCVOpcode → Nat
  | .add => 0
  | .sub => 0
  | .sll => 1
  | .slt => 2
  | .sltu => 3
  | .xor => 4
  | .srl => 5
  | .sra => 5
  | .or => 6
  | _ => 7

def wordFunct3 : RISCVOpcode → Nat
  | .addw => 0
  | .subw => 0
  | .sllw => 1
  | _ => 5

/-- The second function code of the subtractions and the arithmetic shifts. -/
def registerFunct7 : RISCVOpcode → Nat
  | .sub | .sra | .subw | .sraw => 0x20
  | _ => 0

/-! ## One format each -/

section Format

variable (session : AssemblySession) (instruction : RISCVInstruction) (offset : Int)

def upper : Option Nat :=
  (requireImmediate (instruction.operands 1).value).bind fun immediate =>
    if immediate < -0x80000 ∨ immediate > 0xfffff then .none
    else some (encodeU (if instruction.opcode = .lui then 0x37 else 0x17)
      (instruction.operands 0).reg immediate)

def jump : Option Nat :=
  (resolveTarget session (instruction.operands 1).value offset).bind fun immediate =>
    if immediate % 2 ≠ 0 ∨ !signedRange immediate 21 then .none
    else some (encodeJ (instruction.operands 0).reg immediate)

def jumpRegister : Option Nat :=
  (requireIImmediate (instruction.operands 1)).bind fun immediate =>
    some (encodeI 0x67 0 (instruction.operands 0).reg (instruction.operands 1).reg immediate)

def branch : Option Nat :=
  (resolveTarget session (instruction.operands 2).value offset).bind fun immediate =>
    if immediate % 2 ≠ 0 ∨ !signedRange immediate 13 then .none
    else some (encodeB (branchFunct3 instruction.opcode) (instruction.operands 0).reg
      (instruction.operands 1).reg immediate)

def load : Option Nat :=
  if (instruction.opcode = .lwu ∨ instruction.opcode = .ld) ∧ !requireRV64 session then .none
  else
    (requireIImmediate (instruction.operands 1)).bind fun immediate =>
      some (encodeI 0x03 (loadFunct3 instruction.opcode) (instruction.operands 0).reg
        (instruction.operands 1).reg immediate)

def store : Option Nat :=
  if instruction.opcode = .sd ∧ !requireRV64 session then .none
  else
    (requireIImmediate (instruction.operands 1)).bind fun immediate =>
      some (encodeS (storeFunct3 instruction.opcode) (instruction.operands 1).reg
        (instruction.operands 0).reg immediate)

def arithmetic : Option Nat :=
  (requireIImmediate (instruction.operands 2)).bind fun immediate =>
    some (encodeI 0x13 (immediateFunct3 instruction.opcode) (instruction.operands 0).reg
      (instruction.operands 1).reg immediate)

def shift : Option Nat :=
  (requireImmediate (instruction.operands 2).value).bind fun immediate =>
    if immediate < 0 ∨ immediate ≥ session.currentBits then .none
    else
      let funct3 := if instruction.opcode = .slli then 1 else 5
      let immediate :=
        if instruction.opcode = .srai then ((immediate.toNat ||| 0x400 : Nat) : Int) else immediate
      some (encodeI 0x13 funct3 (instruction.operands 0).reg (instruction.operands 1).reg immediate)

def register : Option Nat :=
  some (encodeR 0x33 (registerFunct3 instruction.opcode) (registerFunct7 instruction.opcode)
    (instruction.operands 0).reg (instruction.operands 1).reg (instruction.operands 2).reg)

def addWord : Option Nat :=
  if !requireRV64 session then .none
  else
    (requireIImmediate (instruction.operands 2)).bind fun immediate =>
      some (encodeI 0x1b 0 (instruction.operands 0).reg (instruction.operands 1).reg immediate)

def shiftWord : Option Nat :=
  if !requireRV64 session then .none
  else
    (requireImmediate (instruction.operands 2).value).bind fun immediate =>
      if immediate < 0 ∨ immediate > 31 then .none
      else
        let funct3 := if instruction.opcode = .slliw then 1 else 5
        let immediate :=
          if instruction.opcode = .sraiw then ((immediate.toNat ||| 0x400 : Nat) : Int) else immediate
        some (encodeI 0x1b funct3 (instruction.operands 0).reg (instruction.operands 1).reg immediate)

def registerWord : Option Nat :=
  if !requireRV64 session then .none
  else
    some (encodeR 0x3b (wordFunct3 instruction.opcode) (registerFunct7 instruction.opcode)
      (instruction.operands 0).reg (instruction.operands 1).reg (instruction.operands 2).reg)

/-- `Encode`; nothing is `false`. -/
def encode : Option Nat :=
  match instruction.opcode with
  | .lui | .auipc => upper instruction
  | .jal => jump session instruction offset
  | .jalr => jumpRegister instruction
  | .beq | .bne | .blt | .bge | .bltu | .bgeu => branch session instruction offset
  | .lb | .lh | .lw | .lbu | .lhu | .lwu | .ld => load session instruction
  | .sb | .sh | .sw | .sd => store session instruction
  | .addi | .slti | .sltiu | .xori | .ori | .andi => arithmetic instruction
  | .slli | .srli | .srai => shift session instruction
  | .add | .sub | .sll | .slt | .sltu | .xor | .srl | .sra | .or | .and => register instruction
  | .addiw => addWord session instruction
  | .slliw | .srliw | .sraiw => shiftWord session instruction
  | .addw | .subw | .sllw | .srlw | .sraw => registerWord session instruction
  | .fence => some 0x0ff0000f
  | .ecall => some 0x00000073
  | .ebreak => some 0x00100073
  | .none => .none

end Format

end RISCVEncoder

/-! ## The formats -/

/-- An instruction with its operands, by format. -/
inductive Decoded where
  | r (op : RISCVOpcode) (rd rs1 rs2 : Nat)
  | i (op : RISCVOpcode) (rd rs1 : Nat) (immediate : Int)
  | s (op : RISCVOpcode) (rs1 rs2 : Nat) (immediate : Int)
  | b (op : RISCVOpcode) (rs1 rs2 : Nat) (displacement : Int)
  | u (op : RISCVOpcode) (rd : Nat) (immediate : Int)
  | j (op : RISCVOpcode) (rd : Nat) (displacement : Int)
  | bare (op : RISCVOpcode)
  deriving DecidableEq, Repr

namespace Decoded

open Packing (field)

/-- A number of `width` bits, with its sign. -/
def signed (width n : Nat) : Int := (n : Int).bmod (2 ^ width)

section Fields

variable (word : Nat)

def opcodeOf : Nat := field word 0 7
def rdOf : Nat := field word 7 5
def funct3Of : Nat := field word 12 3
def rs1Of : Nat := field word 15 5
def rs2Of : Nat := field word 20 5
def funct7Of : Nat := field word 25 7
def immI : Int := signed 12 (field word 20 12)
def immS : Int := signed 12 (field word 7 5 + 2 ^ 5 * field word 25 7)
def immU : Int := signed 20 (field word 12 20)

def immB : Int :=
  signed 13 (2 * field word 8 4 + 2 ^ 5 * field word 25 6 + 2 ^ 11 * field word 7 1 +
    2 ^ 12 * field word 31 1)

def immJ : Int :=
  signed 21 (2 * field word 21 10 + 2 ^ 11 * field word 20 1 + 2 ^ 12 * field word 12 8 +
    2 ^ 20 * field word 31 1)

end Fields

def branchOf : Nat → Option RISCVOpcode
  | 0 => some .beq
  | 1 => some .bne
  | 4 => some .blt
  | 5 => some .bge
  | 6 => some .bltu
  | 7 => some .bgeu
  | _ => none

/-- Loads; those of `RV64I` need 64 bits. -/
def loadOf (xlen : Nat) : Nat → Option RISCVOpcode
  | 0 => some .lb
  | 1 => some .lh
  | 2 => some .lw
  | 3 => if xlen = 64 then some .ld else none
  | 4 => some .lbu
  | 5 => some .lhu
  | 6 => if xlen = 64 then some .lwu else none
  | _ => none

def storeOf (xlen : Nat) : Nat → Option RISCVOpcode
  | 0 => some .sb
  | 1 => some .sh
  | 2 => some .sw
  | 3 => if xlen = 64 then some .sd else none
  | _ => none

def immediateOf : Nat → Option RISCVOpcode
  | 0 => some .addi
  | 2 => some .slti
  | 3 => some .sltiu
  | 4 => some .xori
  | 6 => some .ori
  | 7 => some .andi
  | _ => none

def registerOf : (funct3 funct7 : Nat) → Option RISCVOpcode
  | 0, 0 => some .add
  | 0, 0x20 => some .sub
  | 1, 0 => some .sll
  | 2, 0 => some .slt
  | 3, 0 => some .sltu
  | 4, 0 => some .xor
  | 5, 0 => some .srl
  | 5, 0x20 => some .sra
  | 6, 0 => some .or
  | 7, 0 => some .and
  | _, _ => none

def registerWordOf : (funct3 funct7 : Nat) → Option RISCVOpcode
  | 0, 0 => some .addw
  | 0, 0x20 => some .subw
  | 1, 0 => some .sllw
  | 5, 0 => some .srlw
  | 5, 0x20 => some .sraw
  | _, _ => none

/-- Shifts by an immediate; `top` is what stands above the shift amount. -/
def shiftOf : (funct3 top : Nat) → Option RISCVOpcode
  | 1, 0 => some .slli
  | 5, 0 => some .srli
  | 5, 1 => some .srai
  | _, _ => none

def shiftWordOf : (funct3 top : Nat) → Option RISCVOpcode
  | 1, 0 => some .slliw
  | 5, 0 => some .srliw
  | 5, 1 => some .sraiw
  | _, _ => none

/-- The bits above a shift amount of `width` bits: all zero, or only bit 30 set. -/
def shiftTop (word width : Nat) : Nat :=
  if field word (20 + width) (12 - width) = 0 then 0
  else if field word (20 + width) (12 - width) = 2 ^ (10 - width) then 1
  else 2

/-- A word by the formats of `RV32I` (`xlen` is 32) or `RV64I` (`xlen` is 64). -/
def decode (xlen word : Nat) : Option Decoded :=
  match opcodeOf word with
  | 0x37 => some (u .lui (rdOf word) (immU word))
  | 0x17 => some (u .auipc (rdOf word) (immU word))
  | 0x6f => some (j .jal (rdOf word) (immJ word))
  | 0x67 => if funct3Of word = 0 then some (i .jalr (rdOf word) (rs1Of word) (immI word)) else none
  | 0x63 => (branchOf (funct3Of word)).map fun op => b op (rs1Of word) (rs2Of word) (immB word)
  | 0x03 => (loadOf xlen (funct3Of word)).map fun op => i op (rdOf word) (rs1Of word) (immI word)
  | 0x23 => (storeOf xlen (funct3Of word)).map fun op => s op (rs1Of word) (rs2Of word) (immS word)
  | 0x13 =>
      if funct3Of word = 1 ∨ funct3Of word = 5 then
        let width := if xlen = 64 then 6 else 5
        (shiftOf (funct3Of word) (shiftTop word width)).map fun op =>
          i op (rdOf word) (rs1Of word) (field word 20 width)
      else (immediateOf (funct3Of word)).map fun op => i op (rdOf word) (rs1Of word) (immI word)
  | 0x33 =>
      (registerOf (funct3Of word) (funct7Of word)).map fun op =>
        r op (rdOf word) (rs1Of word) (rs2Of word)
  | 0x1b =>
      if xlen ≠ 64 then none
      else if funct3Of word = 0 then some (i .addiw (rdOf word) (rs1Of word) (immI word))
      else
        (shiftWordOf (funct3Of word) (shiftTop word 5)).map fun op =>
          i op (rdOf word) (rs1Of word) (field word 20 5)
  | 0x3b =>
      if xlen ≠ 64 then none
      else
        (registerWordOf (funct3Of word) (funct7Of word)).map fun op =>
          r op (rdOf word) (rs1Of word) (rs2Of word)
  | 0x0f => if funct3Of word = 0 then some (bare .fence) else none
  | 0x73 => if word = 0x73 then some (bare .ecall) else if word = 0x00100073 then some (bare .ebreak) else none
  | _ => none

end Decoded

end Unisym.Lango
