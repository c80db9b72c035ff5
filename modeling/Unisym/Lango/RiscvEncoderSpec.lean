/-
# `RiscvEncoderSpec` — encoding and decoding

A word of `Encode` is a row of its fields (`encodeR_fields` and so on), because every shifted field
begins where the others end.  So `decode` finds each field again, and with it the immediate,
which the range check has kept within its field.

**The exception.**  `Lui` and `Auipc` take an upper immediate with a sign and one without, so
two immediates that differ by 2^20 have one word, and it gives the signed one back.
-/
import Unisym.Lango.RiscvEncoder

namespace Unisym.Lango

open Decoded Packing List

/-! ## Fields of a word -/

namespace RISCVEncoder

/-- The low bits of an immediate. -/
def low (immediate : Int) (width : Nat) : Nat := (immediate % 2 ^ width).toNat

theorem word_and (width : Nat) (hwidth : width ≤ 32) (immediate : Int) :
    word immediate &&& (2 ^ width - 1) = low immediate width := by
  have hpos : ∀ n : Nat, (0 : Int) < 2 ^ n := fun n => Int.pow_pos (by decide)
  have hword : (0 : Int) ≤ immediate % 2 ^ 32 := Int.emod_nonneg _ (Int.ne_of_gt (hpos 32))
  have hdvd : (2 ^ width : Int) ∣ 2 ^ 32 := pow_dvd_pow 2 hwidth
  have hnat : ((2 : Int) ^ width).toNat = 2 ^ width := Int.toNat_natCast (2 ^ width)
  unfold word low
  rw [Nat.and_two_pow_sub_one_eq_mod, ← Int.emod_emod_of_dvd immediate hdvd,
    Int.toNat_emod hword (Int.le_of_lt (hpos width)), hnat]

theorem low_lt (immediate : Int) (width : Nat) : low immediate width < 2 ^ width := by
  have hpos : (0 : Int) < 2 ^ width := Int.pow_pos (by decide)
  have hlow := Int.emod_nonneg immediate (Int.ne_of_gt hpos)
  refine (Int.toNat_lt hlow).mpr ?_
  exact_mod_cast Int.emod_lt_of_pos immediate hpos

/-- The signed number of a field that an immediate was cut to. -/
theorem signed_low (immediate : Int) (width : Nat) :
    signed width (low immediate width) = immediate.bmod (2 ^ width) := by
  have hpos : (0 : Int) < 2 ^ width := Int.pow_pos (by decide)
  have hlow : ((low immediate width : Nat) : Int) = immediate % ((2 ^ width : Nat) : Int) := by
    rw [Int.natCast_pow]
    exact Int.toNat_of_nonneg (Int.emod_nonneg immediate (Int.ne_of_gt hpos))
  unfold signed
  rw [hlow, Int.emod_bmod]

variable {opcode funct3 funct7 rd rs1 rs2 : Nat}

/-! ## The fields again -/

variable {w : Nat} {immediate : Int}

theorem encodeR_fields (hop : opcode < 2 ^ 7) (hrd : rd < 2 ^ 5) (hf3 : funct3 < 2 ^ 3) (hrs1 : rs1 < 2 ^ 5)
    (hrs2 : rs2 < 2 ^ 5) (hf7 : funct7 < 2 ^ 7) (hw : w = encodeR opcode funct3 funct7 rd rs1 rs2) :
    opcodeOf w = opcode ∧ rdOf w = rd ∧ funct3Of w = funct3 ∧ rs1Of w = rs1 ∧ rs2Of w = rs2 ∧
      funct7Of w = funct7 := by
  have hfits : Fits [(7, opcode), (5, rd), (3, funct3), (5, rs1), (5, rs2), (7, funct7)] := by
    simp only [Fits, forall_mem_cons]
    exact ⟨hop, hrd, hf3, hrs1, hrs2, hf7, fun _ h => absurd h not_mem_nil⟩
  have hw := hw.trans (orRow_pack hfits)
  exact ⟨field_pack [] hw hfits, field_pack [_] hw hfits, field_pack [_, _] hw hfits,
    field_pack [_, _, _] hw hfits, field_pack [_, _, _, _] hw hfits,
    field_pack [_, _, _, _, _] hw hfits⟩

theorem encodeI_fields (hop : opcode < 2 ^ 7) (hrd : rd < 2 ^ 5) (hf3 : funct3 < 2 ^ 3) (hrs1 : rs1 < 2 ^ 5) (hw : w = encodeI opcode funct3 rd rs1 immediate) :
    opcodeOf w = opcode ∧ rdOf w = rd ∧ funct3Of w = funct3 ∧ rs1Of w = rs1 ∧
      w / 2 ^ 20 = low immediate 12 := by
  have hfits : Fits [(7, opcode), (5, rd), (3, funct3), (5, rs1), (12, low immediate 12)] := by
    simp only [Fits, forall_mem_cons]
    exact ⟨hop, hrd, hf3, hrs1, low_lt immediate 12, fun _ h => absurd h not_mem_nil⟩
  have hlow : word immediate &&& 0xfff = low immediate 12 := word_and 12 (by decide) immediate
  rw [encodeI, hlow] at hw
  have hw := hw.trans (orRow_pack hfits)
  refine ⟨field_pack [] hw hfits, field_pack [_] hw hfits, field_pack [_, _] hw hfits, field_pack [_, _, _] hw hfits, ?_⟩
  have hbelow : Fits [(7, opcode), (5, rd), (3, funct3), (5, rs1)] := fun f hf =>
    hfits f (mem_append_left [(12, low immediate 12)] hf)
  exact (pack_div [_, _, _, _] hw hbelow).trans (Nat.add_zero _)

theorem encodeU_fields (hop : opcode < 2 ^ 7) (hrd : rd < 2 ^ 5)
    (hw : w = encodeU opcode rd immediate) :
    opcodeOf w = opcode ∧ rdOf w = rd ∧ immU w = immediate.bmod (2 ^ 20) := by
  have hfits : Fits [(7, opcode), (5, rd), (20, low immediate 20)] := by
    simp only [Fits, forall_mem_cons]
    exact ⟨hop, hrd, low_lt immediate 20, fun _ h => absurd h not_mem_nil⟩
  have hlow : word immediate &&& 0xfffff = low immediate 20 := word_and 20 (by decide) immediate
  rw [encodeU, hlow] at hw
  have hw := hw.trans (orRow_pack hfits)
  refine ⟨field_pack [] hw hfits, field_pack [_] hw hfits, ?_⟩
  rw [← signed_low]
  exact congrArg (signed 20) (field_pack [_, _] hw hfits)

theorem encodeS_fields (hf3 : funct3 < 2 ^ 3) (hrs1 : rs1 < 2 ^ 5) (hrs2 : rs2 < 2 ^ 5) (hw : w = encodeS funct3 rs1 rs2 immediate) :
    opcodeOf w = 0x23 ∧ funct3Of w = funct3 ∧ rs1Of w = rs1 ∧ rs2Of w = rs2 ∧
      immS w = immediate.bmod (2 ^ 12) := by
  have hfits : Fits [(7, 0x23), (5, field (low immediate 12) 0 5), (3, funct3), (5, rs1), (5, rs2),
      (7, field (low immediate 12) 5 7)] := by
    simp only [Fits, forall_mem_cons]
    exact ⟨by decide, field_lt _ 0 5, hf3, hrs1, hrs2, field_lt _ 5 7,
      fun _ h => absurd h not_mem_nil⟩
  have hmask : word immediate &&& 0xfff = low immediate 12 := word_and 12 (by decide) immediate
  have hseven : low immediate 12 >>> 5 = field (low immediate 12) 5 7 := by
    have := low_lt immediate 12
    rw [Nat.shiftRight_eq_div_pow]
    exact (Nat.mod_eq_of_lt (by omega)).symm
  have hword : encodeS funct3 rs1 rs2 immediate = orRow 7 0x23 [(5, field (low immediate 12) 0 5),
      (3, funct3), (5, rs1), (5, rs2), (7, field (low immediate 12) 5 7)] := by
    rw [← hseven, ← shiftRight_and _ 0 5, ← hmask]
    rfl
  have hw := (hw.trans hword).trans (orRow_pack hfits)
  refine ⟨field_pack [] hw hfits, field_pack [_, _] hw hfits, field_pack [_, _, _] hw hfits,
    field_pack [_, _, _, _] hw hfits, ?_⟩
  have hlow : low immediate 12 = field (low immediate 12) 0 5 + 2 ^ 5 * field (low immediate 12) 5 7 := by
    have hwhole : field (low immediate 12) 0 12 = low immediate 12 := by
      have := low_lt immediate 12
      unfold field
      omega
    have hadd : field (low immediate 12) 0 12 = field (low immediate 12) 0 5 +
        2 ^ 5 * field (low immediate 12) 5 7 := field_add _ rfl rfl
    rw [← hadd, hwhole]
  rw [← signed_low]
  have hfirst : field w 7 5 = _ := field_pack [_] hw hfits
  have hsecond : field w 25 7 = _ := field_pack [_, _, _, _, _] hw hfits
  unfold immS
  rw [hfirst, hsecond, ← hlow]

theorem low_even (heven : immediate % 2 = 0) (width : Nat) :
    low immediate (width + 1) = 2 * field (low immediate (width + 1)) 1 width := by
  have hlt := low_lt immediate (width + 1)
  have hmod : low immediate (width + 1) % 2 = 0 := by
    have hpos : (0 : Int) < 2 ^ (width + 1) := Int.pow_pos (by decide)
    have hlow := Int.emod_nonneg immediate (Int.ne_of_gt hpos)
    have hdvd : (2 : Int) ∣ 2 ^ (width + 1) := Dvd.intro_left (2 ^ width) rfl
    have htwo : immediate % 2 ^ (width + 1) % 2 = 0 := by rw [Int.emod_emod_of_dvd immediate hdvd, heven]
    unfold low
    omega
  unfold field
  rw [Nat.mod_eq_of_lt (by rw [Nat.pow_succ] at hlt; omega)]
  omega

theorem encodeB_fields (hf3 : funct3 < 2 ^ 3) (hrs1 : rs1 < 2 ^ 5) (hrs2 : rs2 < 2 ^ 5)
    (heven : immediate % 2 = 0) (hw : w = encodeB funct3 rs1 rs2 immediate) :
    opcodeOf w = 0x63 ∧ funct3Of w = funct3 ∧ rs1Of w = rs1 ∧ rs2Of w = rs2 ∧
      immB w = immediate.bmod (2 ^ 13) := by
  have hfits : Fits [(7, 0x63), (1, field (low immediate 13) 11 1), (4, field (low immediate 13) 1 4),
      (3, funct3), (5, rs1), (5, rs2), (6, field (low immediate 13) 5 6),
      (1, field (low immediate 13) 12 1)] := by
    simp only [Fits, forall_mem_cons]
    exact ⟨by decide, field_lt _ 11 1, field_lt _ 1 4, hf3, hrs1, hrs2, field_lt _ 5 6, field_lt _ 12 1,
      fun _ h => absurd h not_mem_nil⟩
  have hmask : word immediate &&& 0x1fff = low immediate 13 := word_and 13 (by decide) immediate
  have hword : encodeB funct3 rs1 rs2 immediate = orRow 7 0x63 [(1, field (low immediate 13) 11 1),
      (4, field (low immediate 13) 1 4), (3, funct3), (5, rs1), (5, rs2),
      (6, field (low immediate 13) 5 6), (1, field (low immediate 13) 12 1)] := by
    rw [← shiftRight_and _ 11 1, ← shiftRight_and _ 1 4, ← shiftRight_and _ 5 6,
      ← shiftRight_and _ 12 1, ← hmask]
    rfl
  have hw := (hw.trans hword).trans (orRow_pack hfits)
  refine ⟨field_pack [] hw hfits, field_pack [_, _, _] hw hfits, field_pack [_, _, _, _] hw hfits,
    field_pack [_, _, _, _, _] hw hfits, ?_⟩
  have h₈ : field w 8 4 = _ := field_pack [_, _] hw hfits
  have h₂₅ : field w 25 6 = _ := field_pack [_, _, _, _, _, _] hw hfits
  have h₇ : field w 7 1 = _ := field_pack [_] hw hfits
  have h₃₁ : field w 31 1 = _ := field_pack [_, _, _, _, _, _, _] hw hfits
  have hlow : low immediate 13 = 2 * field (low immediate 13) 1 4 + 2 ^ 5 * field (low immediate 13) 5 6 +
      2 ^ 11 * field (low immediate 13) 11 1 + 2 ^ 12 * field (low immediate 13) 12 1 := by
    have hhalf : low immediate 13 = 2 * field (low immediate 13) 1 12 := low_even heven 12
    have h₁ : field (low immediate 13) 1 12 = field (low immediate 13) 1 4 +
        2 ^ 4 * field (low immediate 13) 5 8 := field_add _ rfl rfl
    have h₂ : field (low immediate 13) 5 8 = field (low immediate 13) 5 6 +
        2 ^ 6 * field (low immediate 13) 11 2 := field_add _ rfl rfl
    have h₃ : field (low immediate 13) 11 2 = field (low immediate 13) 11 1 +
        2 ^ 1 * field (low immediate 13) 12 1 := field_add _ rfl rfl
    omega
  rw [← signed_low]
  unfold immB
  rw [h₈, h₂₅, h₇, h₃₁, ← hlow]

theorem encodeJ_fields (hrd : rd < 2 ^ 5) (heven : immediate % 2 = 0)
    (hw : w = encodeJ rd immediate) :
    opcodeOf w = 0x6f ∧ rdOf w = rd ∧ immJ w = immediate.bmod (2 ^ 21) := by
  have hfits : Fits [(7, 0x6f), (5, rd), (8, field (low immediate 21) 12 8),
      (1, field (low immediate 21) 11 1), (10, field (low immediate 21) 1 10),
      (1, field (low immediate 21) 20 1)] := by
    simp only [Fits, forall_mem_cons]
    exact ⟨by decide, hrd, field_lt _ 12 8, field_lt _ 11 1, field_lt _ 1 10, field_lt _ 20 1,
      fun _ h => absurd h not_mem_nil⟩
  have hmask : word immediate &&& 0x1fffff = low immediate 21 := word_and 21 (by decide) immediate
  have hword : encodeJ rd immediate = orRow 7 0x6f [(5, rd), (8, field (low immediate 21) 12 8),
      (1, field (low immediate 21) 11 1), (10, field (low immediate 21) 1 10),
      (1, field (low immediate 21) 20 1)] := by
    rw [← shiftRight_and _ 12 8, ← shiftRight_and _ 11 1, ← shiftRight_and _ 1 10,
      ← shiftRight_and _ 20 1, ← hmask]
    rfl
  have hw := (hw.trans hword).trans (orRow_pack hfits)
  refine ⟨field_pack [] hw hfits, field_pack [_] hw hfits, ?_⟩
  have h₂₁ : field w 21 10 = _ := field_pack [_, _, _, _] hw hfits
  have h₂₀ : field w 20 1 = _ := field_pack [_, _, _] hw hfits
  have h₁₂ : field w 12 8 = _ := field_pack [_, _] hw hfits
  have h₃₁ : field w 31 1 = _ := field_pack [_, _, _, _, _] hw hfits
  have hlow : low immediate 21 = 2 * field (low immediate 21) 1 10 + 2 ^ 11 * field (low immediate 21) 11 1 +
      2 ^ 12 * field (low immediate 21) 12 8 + 2 ^ 20 * field (low immediate 21) 20 1 := by
    have hhalf : low immediate 21 = 2 * field (low immediate 21) 1 20 := low_even heven 20
    have h₁ : field (low immediate 21) 1 20 = field (low immediate 21) 1 10 +
        2 ^ 10 * field (low immediate 21) 11 10 := field_add _ rfl rfl
    have h₂ : field (low immediate 21) 11 10 = field (low immediate 21) 11 1 +
        2 ^ 1 * field (low immediate 21) 12 9 := field_add _ rfl rfl
    have h₃ : field (low immediate 21) 12 9 = field (low immediate 21) 12 8 +
        2 ^ 8 * field (low immediate 21) 20 1 := field_add _ rfl rfl
    omega
  rw [← signed_low]
  unfold immJ
  rw [h₂₁, h₂₀, h₁₂, h₃₁, ← hlow]

end RISCVEncoder

/-! ## What an instruction says -/

namespace RISCVInstruction

/-- The operation with its operands, by format.  The displacement is a difference of 64-bit
words. -/
def said (instruction : RISCVInstruction) (offset : Int) : Decoded :=
  let op := instruction.opcode
  let reg := fun k => (instruction.operands k).reg
  let value := fun k => (instruction.operands k).value.offset
  match op with
  | .lui | .auipc => .u op (reg 0) (value 1)
  | .jal => .j op (reg 0) ((value 1 - offset).bmod (2 ^ 64))
  | .beq | .bne | .blt | .bge | .bltu | .bgeu =>
      .b op (reg 0) (reg 1) ((value 2 - offset).bmod (2 ^ 64))
  | .jalr | .lb | .lh | .lw | .lbu | .lhu | .lwu | .ld => .i op (reg 0) (reg 1) (value 1)
  | .sb | .sh | .sw | .sd => .s op (reg 1) (reg 0) (value 1)
  | .addi | .slti | .sltiu | .xori | .ori | .andi | .slli | .srli | .srai
  | .addiw | .slliw | .srliw | .sraiw => .i op (reg 0) (reg 1) (value 2)
  | .add | .sub | .sll | .slt | .sltu | .xor | .srl | .sra | .or | .and
  | .addw | .subw | .sllw | .srlw | .sraw => .r op (reg 0) (reg 1) (reg 2)
  | .fence | .ecall | .ebreak | .none => .bare op

end RISCVInstruction

namespace Decoded

/-- The immediate or the displacement has room in its field. -/
def Fits (xlen : Nat) : Decoded → Prop
  | .u _ _ immediate => -2 ^ 19 ≤ immediate ∧ immediate < 2 ^ 20
  | .j _ _ displacement => displacement % 2 = 0 ∧ -2 ^ 20 ≤ displacement ∧ displacement < 2 ^ 20
  | .b _ _ _ displacement => displacement % 2 = 0 ∧ -2 ^ 12 ≤ displacement ∧ displacement < 2 ^ 12
  | .s _ _ _ immediate => -2 ^ 11 ≤ immediate ∧ immediate < 2 ^ 11
  | .i op _ _ immediate =>
      match op with
      | .slli | .srli | .srai => 0 ≤ immediate ∧ immediate < xlen
      | .slliw | .srliw | .sraiw => 0 ≤ immediate ∧ immediate < 32
      | _ => -2 ^ 11 ≤ immediate ∧ immediate < 2 ^ 11
  | .r _ _ _ _ | .bare _ => True

/-- An upper immediate as the signed number of its 20 bits. -/
def upper : Decoded → Decoded
  | .u op rd immediate => .u op rd (immediate.bmod (2 ^ 20))
  | d => d

end Decoded

/-- A word is the encoding of `d`, or there is none; what has no room has none. -/
def Faithful (xlen : Nat) (d : Decoded) (r : Option Nat) : Prop :=
  (∀ w, r = some w → decode xlen w = some d.upper) ∧ (¬d.Fits xlen → r = none)

namespace RISCVEncoder

variable {session : AssemblySession} {instruction : RISCVInstruction} {offset : Int} {xlen : Nat}

variable {immediate : Int}

theorem requireImmediate_some {value : RISCVValue}
    (h : requireImmediate value = some immediate) : immediate = value.offset := by
  unfold requireImmediate at h
  split at h
  · cases h
  · exact (Option.some.inj h).symm

theorem resolveTarget_some {value : RISCVValue}
    (h : resolveTarget session value offset = some immediate) :
    immediate = (value.offset - offset).bmod (2 ^ 64) := by
  unfold resolveTarget at h
  split at h
  · cases h
  · split at h
    · cases h
    · exact (Option.some.inj h).symm

theorem signedRange_iff {value : Int} {bits : Nat} :
    signedRange value bits = true ↔ -2 ^ (bits - 1) ≤ value ∧ value < 2 ^ (bits - 1) := by
  unfold signedRange
  rw [Bool.and_eq_true_iff, decide_eq_true_iff, decide_eq_true_iff]

theorem requireIImmediate_some {operand : RISCVOperand}
    (h : requireIImmediate operand = some immediate) :
    immediate = operand.value.offset ∧ -2 ^ 11 ≤ immediate ∧ immediate < 2 ^ 11 := by
  obtain ⟨value, hvalue, hrange⟩ := Option.bind_eq_some_iff.mp h
  cases hsigned : signedRange value 12 with
  | false =>
    rw [hsigned] at hrange
    cases hrange
  | true =>
    rw [hsigned] at hrange
    obtain rfl := Option.some.inj hrange
    exact ⟨requireImmediate_some hvalue, signedRange_iff.mp hsigned⟩

/-- A signed field of `width` bits keeps what is in its range. -/
theorem bmod_of_range {width : Nat} (hlow : -2 ^ width ≤ immediate)
    (hhigh : immediate < 2 ^ width) : immediate.bmod (2 ^ (width + 1)) = immediate := by
  have hhalf : ((2 ^ (width + 1) : Nat) : Int) = 2 * 2 ^ width := by
    rw [Int.natCast_pow, Int.pow_succ, Int.mul_comm]
    rfl
  refine Int.bmod_eq_of_le ?_ ?_ <;> omega

theorem faithful_of_some {d : Decoded} {r : Option Nat}
    (h : ∀ w, r = some w → decode xlen w = some d.upper ∧ d.Fits xlen) : Faithful xlen d r := by
  refine ⟨fun w hw => (h w hw).1, fun hfits => ?_⟩
  cases hr : r with
  | none => rfl
  | some w => exact absurd (h w hr).2 hfits

/-! ## One format each -/

section Format

variable (hreg : ∀ k, (instruction.operands k).reg < 2 ^ 5)
include hreg

theorem upper_faithful (hop : instruction.opcode = .lui ∨ instruction.opcode = .auipc) :
    Faithful xlen (.u instruction.opcode (instruction.operands 0).reg (instruction.operands 1).value.offset)
      (upper instruction) := by
  refine faithful_of_some fun w hw => ?_
  obtain ⟨immediate, himm, hword⟩ := Option.bind_eq_some_iff.mp hw
  obtain rfl := requireImmediate_some himm
  split at hword
  · cases hword
  · next hrange =>
    obtain hword := (Option.some.inj hword).symm
    refine ⟨?_, by simp only [Decoded.Fits]; omega⟩
    rcases hop with hop | hop
    · rw [hop, if_pos rfl] at hword
      obtain ⟨hopcode, hrd, himmediate⟩ := encodeU_fields (by decide) (hreg 0) hword
      unfold decode
      rw [hopcode, hrd, himmediate, hop]
      rfl
    · rw [hop, if_neg (by decide)] at hword
      obtain ⟨hopcode, hrd, himmediate⟩ := encodeU_fields (by decide) (hreg 0) hword
      unfold decode
      rw [hopcode, hrd, himmediate, hop]
      rfl

theorem jump_faithful (hop : instruction.opcode = .jal) :
    Faithful xlen (.j instruction.opcode (instruction.operands 0).reg
      (((instruction.operands 1).value.offset - offset).bmod (2 ^ 64)))
      (jump session instruction offset) := by
  refine faithful_of_some fun w hw => ?_
  obtain ⟨immediate, himm, hword⟩ := Option.bind_eq_some_iff.mp hw
  rw [← resolveTarget_some himm]
  split at hword
  · cases hword
  · next hrange =>
    obtain ⟨heven, hsigned⟩ := not_or.mp hrange
    have heven := not_not.mp heven
    obtain ⟨hlow, hhigh⟩ := signedRange_iff.mp
      (by simpa only [Bool.not_eq_true', Bool.not_eq_false] using hsigned)
    have hkept : immediate.bmod (2 ^ 21) = immediate := bmod_of_range hlow hhigh
    obtain ⟨hopcode, hrd, himmediate⟩ :=
      encodeJ_fields (hreg 0) heven (Option.some.inj hword).symm
    refine ⟨?_, heven, hlow, hhigh⟩
    unfold decode
    rw [hopcode, hrd, himmediate, hkept, hop]
    rfl

theorem branch_faithful (hop : branchOf (branchFunct3 instruction.opcode) = some instruction.opcode) :
    Faithful xlen (.b instruction.opcode (instruction.operands 0).reg (instruction.operands 1).reg
      (((instruction.operands 2).value.offset - offset).bmod (2 ^ 64)))
      (branch session instruction offset) := by
  refine faithful_of_some fun w hw => ?_
  obtain ⟨immediate, himm, hword⟩ := Option.bind_eq_some_iff.mp hw
  rw [← resolveTarget_some himm]
  split at hword
  · cases hword
  · next hrange =>
    obtain ⟨heven, hsigned⟩ := not_or.mp hrange
    have heven := not_not.mp heven
    obtain ⟨hlow, hhigh⟩ := signedRange_iff.mp
      (by simpa only [Bool.not_eq_true', Bool.not_eq_false] using hsigned)
    have hkept : immediate.bmod (2 ^ 13) = immediate := bmod_of_range hlow hhigh
    have hf3 : branchFunct3 instruction.opcode < 2 ^ 3 := by
      unfold branchFunct3
      split <;> decide
    obtain ⟨hopcode, hfunct3, hrs1, hrs2, himmediate⟩ :=
      encodeB_fields hf3 (hreg 0) (hreg 1) heven (Option.some.inj hword).symm
    refine ⟨?_, heven, hlow, hhigh⟩
    unfold decode
    rw [hopcode]
    dsimp only
    rw [hfunct3, hop, hrs1, hrs2, himmediate, hkept]
    rfl

theorem store_faithful (hbits : session.currentBits = xlen)
    (hop : (instruction.opcode = .sd → xlen = 64) →
      storeOf xlen (storeFunct3 instruction.opcode) = some instruction.opcode) :
    Faithful xlen (.s instruction.opcode (instruction.operands 1).reg (instruction.operands 0).reg
      (instruction.operands 1).value.offset) (store session instruction) := by
  refine faithful_of_some fun w hw => ?_
  unfold store at hw
  split at hw
  · cases hw
  · next hmode =>
    obtain ⟨immediate, himm, hword⟩ := Option.bind_eq_some_iff.mp hw
    obtain ⟨rfl, hlow, hhigh⟩ := requireIImmediate_some himm
    have hkept : (instruction.operands 1).value.offset.bmod (2 ^ 12) =
        (instruction.operands 1).value.offset := bmod_of_range hlow hhigh
    have hf3 : storeFunct3 instruction.opcode < 2 ^ 3 := by
      unfold storeFunct3
      split <;> decide
    have hfound := hop fun hsd => by
      have hrv : requireRV64 session = true := by simpa [hsd] using hmode
      have := of_decide_eq_true hrv
      omega
    obtain ⟨hopcode, hfunct3, hrs1, hrs2, himmediate⟩ :=
      encodeS_fields hf3 (hreg 1) (hreg 0) (Option.some.inj hword).symm
    refine ⟨?_, hlow, hhigh⟩
    unfold decode
    rw [hopcode]
    dsimp only
    rw [hfunct3, hfound, hrs1, hrs2, himmediate, hkept]
    rfl

theorem immediate_faithful {opcode funct3 : Nat} (hopcode : opcode < 2 ^ 7) (hf3 : funct3 < 2 ^ 3)
    (operand : RISCVOperand)
    (hfits : ∀ rd rs1 immediate, -2 ^ 11 ≤ immediate → immediate < 2 ^ 11 →
      Decoded.Fits xlen (.i instruction.opcode rd rs1 immediate))
    (hdecode : ∀ w, opcodeOf w = opcode → funct3Of w = funct3 →
      decode xlen w = some (.i instruction.opcode (rdOf w) (rs1Of w) (immI w))) :
    Faithful xlen (.i instruction.opcode (instruction.operands 0).reg (instruction.operands 1).reg
      operand.value.offset)
      ((requireIImmediate operand).bind fun immediate =>
        some (encodeI opcode funct3 (instruction.operands 0).reg (instruction.operands 1).reg immediate)) := by
  refine faithful_of_some fun w hw => ?_
  obtain ⟨immediate, himm, hword⟩ := Option.bind_eq_some_iff.mp hw
  obtain ⟨rfl, hlow, hhigh⟩ := requireIImmediate_some himm
  obtain ⟨hop, hrd, hfunct3, hrs1, htop⟩ :=
    encodeI_fields hopcode (hreg 0) hf3 (hreg 1) (Option.some.inj hword).symm
  have hkept : operand.value.offset.bmod (2 ^ 12) = operand.value.offset := bmod_of_range hlow hhigh
  have himmediate : immI w = operand.value.offset := by
    unfold immI field
    rw [htop, Nat.mod_eq_of_lt (low_lt _ 12), signed_low, hkept]
  refine ⟨?_, hfits _ _ _ hlow hhigh⟩
  rw [hdecode w hop hfunct3, hrd, hrs1, himmediate]
  rfl

theorem load_faithful (hbits : session.currentBits = xlen)
    (hfits : ∀ rd rs1 immediate, -2 ^ 11 ≤ immediate → immediate < 2 ^ 11 →
      Decoded.Fits xlen (.i instruction.opcode rd rs1 immediate))
    (hop : (instruction.opcode = .lwu ∨ instruction.opcode = .ld → xlen = 64) →
      loadOf xlen (loadFunct3 instruction.opcode) = some instruction.opcode) :
    Faithful xlen (.i instruction.opcode (instruction.operands 0).reg (instruction.operands 1).reg
      (instruction.operands 1).value.offset) (load session instruction) := by
  have hf3 : loadFunct3 instruction.opcode < 2 ^ 3 := by
    unfold loadFunct3
    split <;> decide
  unfold load
  split
  · exact ⟨nofun, fun _ => rfl⟩
  · next hmode =>
    have hfound := hop fun hlong => by
      have hrv : requireRV64 session = true := by simpa [hlong] using hmode
      have := of_decide_eq_true hrv
      omega
    refine immediate_faithful hreg (by decide) hf3 (instruction.operands 1) hfits fun w h₁ h₂ => ?_
    unfold decode
    rw [h₁]
    dsimp only
    rw [h₂, hfound]
    rfl

theorem register_faithful {opcode funct3 funct7 : Nat} (hopcode : opcode < 2 ^ 7) (hf3 : funct3 < 2 ^ 3)
    (hf7 : funct7 < 2 ^ 7)
    (hdecode : ∀ w, opcodeOf w = opcode → funct3Of w = funct3 → funct7Of w = funct7 →
      decode xlen w = some (.r instruction.opcode (rdOf w) (rs1Of w) (rs2Of w))) :
    Faithful xlen (.r instruction.opcode (instruction.operands 0).reg (instruction.operands 1).reg
      (instruction.operands 2).reg)
      (some (encodeR opcode funct3 funct7 (instruction.operands 0).reg (instruction.operands 1).reg
        (instruction.operands 2).reg)) := by
  refine faithful_of_some fun w hw => ?_
  obtain ⟨hop, hrd, hfunct3, hrs1, hrs2, hfunct7⟩ :=
    encodeR_fields hopcode (hreg 0) hf3 (hreg 1) (hreg 2) hf7 (Option.some.inj hw).symm
  refine ⟨?_, trivial⟩
  rw [hdecode w hop hfunct3 hfunct7, hrd, hrs1, hrs2]
  rfl

omit hreg in
/-- A shift amount below `2 ^ width`, with bit 30 of the word set or not. -/
theorem shift_fields {w amount : Nat} {top : Bool} {width : Nat} (hwidth : width = 5 ∨ width = 6)
    (hamount : amount < 2 ^ width) (hw : w / 2 ^ 20 = amount + if top then 0x400 else 0) :
    field w 20 width = amount ∧ shiftTop w width = if top then 1 else 0 := by
  have hdiv : ∀ k, w / 2 ^ (20 + k) = w / 2 ^ 20 / 2 ^ k := fun k => by
    rw [Nat.pow_add, Nat.div_div_eq_div_mul]
  unfold shiftTop field
  rw [hdiv, hw]
  rcases hwidth with rfl | rfl
  all_goals
    cases top
    · simp only [Bool.false_eq_true, if_false]
      constructor
      · omega
      · rw [if_pos (by omega)]
    · simp only [if_true]
      constructor
      · omega
      · rw [if_neg (by omega), if_pos (by omega)]

/-- A shift by an immediate, in a register of `limit` bits. -/
theorem shift_faithful (opcode funct3 : Nat) (limit : Int) (top : Bool) (width : Nat)
    (hopcode : opcode < 2 ^ 7) (hf3 : funct3 < 2 ^ 3) (hwidth : width = 5 ∨ width = 6)
    (hlimit : limit = 2 ^ width)
    (hfits : ∀ rd rs1 immediate, 0 ≤ immediate → immediate < limit →
      Decoded.Fits xlen (.i instruction.opcode rd rs1 immediate))
    (hdecode : ∀ w, opcodeOf w = opcode → funct3Of w = funct3 →
      shiftTop w width = (if top then 1 else 0) →
      decode xlen w = some (.i instruction.opcode (rdOf w) (rs1Of w) (field w 20 width))) :
    Faithful xlen (.i instruction.opcode (instruction.operands 0).reg (instruction.operands 1).reg
      (instruction.operands 2).value.offset)
      ((requireImmediate (instruction.operands 2).value).bind fun immediate =>
        if immediate < 0 ∨ immediate ≥ limit then none
        else some (encodeI opcode funct3 (instruction.operands 0).reg (instruction.operands 1).reg
          (if top then ((immediate.toNat ||| 0x400 : Nat) : Int) else immediate))) := by
  refine faithful_of_some fun w hw => ?_
  obtain ⟨immediate, himm, hword⟩ := Option.bind_eq_some_iff.mp hw
  obtain rfl := requireImmediate_some himm
  split at hword
  · cases hword
  · next hrange =>
    obtain ⟨hop, hrd, hfunct3, hrs1, htop⟩ :=
      encodeI_fields hopcode (hreg 0) hf3 (hreg 1) (Option.some.inj hword).symm
    generalize himm : (instruction.operands 2).value.offset = immediate at hrange htop ⊢
    obtain ⟨amount, rfl⟩ := Int.eq_ofNat_of_zero_le (a := immediate) (by omega)
    have hamount : amount < 2 ^ width := by
      rcases hwidth with rfl | rfl
      all_goals
        simp only [hlimit] at hrange
        omega
    have hsmall : amount < 2 ^ 10 :=
      Nat.lt_of_lt_of_le hamount (Nat.pow_le_pow_right (by decide) (by omega))
    have hor : amount ||| 0x400 = amount + 0x400 := or_shiftLeft hsmall 1
    have hlow : w / 2 ^ 20 = amount + if top then 0x400 else 0 := by
      rw [htop]
      unfold low
      cases top
      · simp only [Bool.false_eq_true, if_false]
        omega
      · simp only [if_true, Int.toNat_natCast, hor]
        omega
    obtain ⟨hfield, hshift⟩ := shift_fields hwidth hamount hlow
    refine ⟨?_, hfits _ _ _ (by omega) (by omega)⟩
    rw [hdecode w hop hfunct3 hshift, hrd, hrs1, hfield]
    rfl

/-- A shift by an immediate in a whole register, whose width is the one of the mode -/
theorem shiftImmediate_faithful (funct3 : Nat) (top : Bool) (hbits : session.currentBits = xlen)
    (hxlen : xlen = 32 ∨ xlen = 64) (hf3 : funct3 = 1 ∨ funct3 = 5)
    (hop : shiftOf funct3 (if top then 1 else 0) = some instruction.opcode)
    (hfits : ∀ rd rs1 immediate, 0 ≤ immediate → immediate < (xlen : Int) →
      Decoded.Fits xlen (.i instruction.opcode rd rs1 immediate)) :
    Faithful xlen (.i instruction.opcode (instruction.operands 0).reg (instruction.operands 1).reg
      (instruction.operands 2).value.offset)
      ((requireImmediate (instruction.operands 2).value).bind fun immediate =>
        if immediate < 0 ∨ immediate ≥ session.currentBits then none
        else some (encodeI 0x13 funct3 (instruction.operands 0).reg (instruction.operands 1).reg
          (if top then ((immediate.toNat ||| 0x400 : Nat) : Int) else immediate))) := by
  rw [hbits]
  obtain ⟨width, hwidth, rfl⟩ : ∃ width, (width = 5 ∨ width = 6) ∧ 2 ^ width = xlen := by
    rcases hxlen with rfl | rfl
    · exact ⟨5, .inl rfl, rfl⟩
    · exact ⟨6, .inr rfl, rfl⟩
  refine shift_faithful hreg 0x13 funct3 _ top width (by decide) (by omega) hwidth (by rw [Int.natCast_pow]; rfl) hfits
    fun w hopcode hfunct3 htop => ?_
  have hshift : decode (2 ^ width) w = (shiftOf (funct3Of w) (shiftTop w width)).map fun op =>
      .i op (rdOf w) (rs1Of w) (field w 20 width) := by
    unfold decode
    rw [hopcode]
    rcases hf3 with rfl | rfl <;> rcases hwidth with rfl | rfl <;> rw [hfunct3] <;> rfl
  rw [hshift, hfunct3, htop, hop]
  rfl

end Format

theorem immediateFunct3_lt (op : RISCVOpcode) : immediateFunct3 op < 2 ^ 3 := by
  cases op <;> decide

theorem registerFunct3_lt (op : RISCVOpcode) : registerFunct3 op < 2 ^ 3 := by
  cases op <;> decide

theorem wordFunct3_lt (op : RISCVOpcode) : wordFunct3 op < 2 ^ 3 := by
  cases op <;> decide

theorem registerFunct7_lt (op : RISCVOpcode) : registerFunct7 op < 2 ^ 7 := by
  cases op <;> decide

theorem encode_faithful (instruction : RISCVInstruction) (hbits : session.currentBits = xlen)
    (hxlen : xlen = 32 ∨ xlen = 64) (hreg : ∀ k, (instruction.operands k).reg < 2 ^ 5) :
    Faithful xlen (instruction.said offset) (encode session instruction offset) := by
  have hrv : ∀ {r : Option Nat} {d : Decoded}, (xlen = 64 → Faithful xlen d r) →
      Faithful xlen d (if !requireRV64 session then none else r) := by
    intro r d h
    split
    · exact ⟨nofun, fun _ => rfl⟩
    · next hmode =>
      have hlong : requireRV64 session = true := by
        simpa only [Bool.not_eq_true', Bool.not_eq_false] using hmode
      have := of_decide_eq_true hlong
      exact h (by omega)
  obtain ⟨op, operands⟩ := instruction
  cases op with
  | none => exact ⟨nofun, fun _ => rfl⟩
  | fence =>
    refine faithful_of_some fun w hw => ⟨?_, trivial⟩
    cases hw
    rfl
  | ecall =>
    refine faithful_of_some fun w hw => ⟨?_, trivial⟩
    cases hw
    rfl
  | ebreak =>
    refine faithful_of_some fun w hw => ⟨?_, trivial⟩
    cases hw
    rfl
  | lui => exact upper_faithful hreg (.inl rfl)
  | auipc => exact upper_faithful hreg (.inr rfl)
  | jal => exact jump_faithful hreg rfl
  | beq | bne | blt | bge | bltu | bgeu => exact branch_faithful hreg rfl
  | sb | sh | sw => exact store_faithful hreg hbits fun _ => rfl
  | sd =>
    refine store_faithful hreg hbits fun hlong => ?_
    rw [hlong rfl]
    rfl
  | lb | lh | lw | lbu | lhu =>
    exact load_faithful hreg hbits (fun _ _ _ hlow hhigh => ⟨hlow, hhigh⟩) fun _ => rfl
  | lwu =>
    refine load_faithful hreg hbits (fun _ _ _ hlow hhigh => ⟨hlow, hhigh⟩) fun hlong => ?_
    rw [hlong (.inl rfl)]
    rfl
  | ld =>
    refine load_faithful hreg hbits (fun _ _ _ hlow hhigh => ⟨hlow, hhigh⟩) fun hlong => ?_
    rw [hlong (.inr rfl)]
    rfl
  | jalr =>
    refine immediate_faithful hreg (by decide) (by decide) _ (fun _ _ _ hlow hhigh => ⟨hlow, hhigh⟩)
      fun w hopcode hfunct3 => ?_
    unfold decode
    rw [hopcode, hfunct3]
    rfl
  | addi | slti | sltiu | xori | ori | andi =>
    refine immediate_faithful hreg (by decide) (immediateFunct3_lt _) _ (fun _ _ _ hlow hhigh => ⟨hlow, hhigh⟩)
      fun w hopcode hfunct3 => ?_
    unfold decode
    rw [hopcode, hfunct3]
    rfl
  | addiw =>
    refine hrv fun hlong => ?_
    subst hlong
    refine immediate_faithful hreg (by decide) (by decide) _ (fun _ _ _ hlow hhigh => ⟨hlow, hhigh⟩)
      fun w hopcode hfunct3 => ?_
    unfold decode
    rw [hopcode, hfunct3]
    rfl
  | slli =>
    exact shiftImmediate_faithful hreg 1 false hbits hxlen (.inl rfl) rfl fun _ _ _ hlow hhigh => ⟨hlow, hhigh⟩
  | srli =>
    exact shiftImmediate_faithful hreg 5 false hbits hxlen (.inr rfl) rfl fun _ _ _ hlow hhigh => ⟨hlow, hhigh⟩
  | srai =>
    exact shiftImmediate_faithful hreg 5 true hbits hxlen (.inr rfl) rfl fun _ _ _ hlow hhigh => ⟨hlow, hhigh⟩
  | slliw =>
    refine hrv fun hlong => ?_
    subst hlong
    refine shift_faithful hreg 0x1b 1 32 false 5 (by decide) (by decide) (.inl rfl) rfl
      (fun _ _ _ hlow hhigh => ⟨hlow, hhigh⟩) fun w hopcode hfunct3 htop => ?_
    unfold decode
    rw [hopcode, hfunct3]
    show Option.map _ (shiftWordOf 1 (shiftTop w 5)) = _
    rw [htop]
    rfl
  | srliw =>
    refine hrv fun hlong => ?_
    subst hlong
    refine shift_faithful hreg 0x1b 5 32 false 5 (by decide) (by decide) (.inl rfl) rfl
      (fun _ _ _ hlow hhigh => ⟨hlow, hhigh⟩) fun w hopcode hfunct3 htop => ?_
    unfold decode
    rw [hopcode, hfunct3]
    show Option.map _ (shiftWordOf 5 (shiftTop w 5)) = _
    rw [htop]
    rfl
  | sraiw =>
    refine hrv fun hlong => ?_
    subst hlong
    refine shift_faithful hreg 0x1b 5 32 true 5 (by decide) (by decide) (.inl rfl) rfl
      (fun _ _ _ hlow hhigh => ⟨hlow, hhigh⟩) fun w hopcode hfunct3 htop => ?_
    unfold decode
    rw [hopcode, hfunct3]
    show Option.map _ (shiftWordOf 5 (shiftTop w 5)) = _
    rw [htop]
    rfl
  | add | sub | sll | slt | sltu | xor | srl | sra | or | and =>
    refine register_faithful hreg (by decide) (registerFunct3_lt _) (registerFunct7_lt _)
      fun w hopcode hfunct3 hfunct7 => ?_
    unfold decode
    rw [hopcode, hfunct3, hfunct7]
    rfl
  | addw | subw | sllw | srlw | sraw =>
    refine hrv fun hlong => ?_
    subst hlong
    refine register_faithful hreg (by decide) (wordFunct3_lt _) (registerFunct7_lt _)
      fun w hopcode hfunct3 hfunct7 => ?_
    unfold decode
    rw [hopcode, hfunct3, hfunct7]
    rfl

end RISCVEncoder

open RISCVEncoder

/-- **Encoding is faithful or refused.**  The word of an instruction is read back as the same
operation with the same registers and the same immediate, an upper immediate as the signed
number of its bits.  What the field has no room for is not encoded. -/
theorem decode_encode_instruction (session : AssemblySession) (instruction : RISCVInstruction) (offset : Int)
    {xlen : Nat} (hbits : session.currentBits = xlen) (hxlen : xlen = 32 ∨ xlen = 64)
    (hreg : ∀ k, (instruction.operands k).reg < 2 ^ 5) :
    (∀ w, encode session instruction offset = some w →
      decode xlen w = some (instruction.said offset).upper) ∧
    (¬(instruction.said offset).Fits xlen → encode session instruction offset = none) :=
  encode_faithful instruction hbits hxlen hreg

/-- An absolute value. -/
def absolute (offset : Int) : RISCVValue := ⟨offset, noSeg, noSeg, false, false⟩

/-- An instruction on `x1` and `x2` with one value. -/
def sample (op : RISCVOpcode) (value : Int) : RISCVInstruction :=
  ⟨op, fun k => ⟨if k = 0 then 1 else 2, absolute value⟩⟩

/-- A branch back by eight bytes, and one by three, which is refused. -/
theorem decode_encode_branch :
    (∀ w, encode ⟨32, 0⟩ (sample .beq 100) 108 = some w →
      decode 32 w = some (.b .beq 1 2 (-8))) ∧
    (encode ⟨32, 0⟩ (sample .beq 100) 103 = none) := by
  have hreg : ∀ value, ∀ k, ((sample .beq value).operands k).reg < 2 ^ 5 := by
    intro value k
    show (if k = 0 then 1 else 2) < 2 ^ 5
    split <;> decide
  refine ⟨(decode_encode_instruction ⟨32, 0⟩ (sample .beq 100) 108 rfl (.inl rfl) (hreg 100)).1,
    (decode_encode_instruction ⟨32, 0⟩ (sample .beq 100) 103 rfl (.inl rfl) (hreg 100)).2 ?_⟩
  intro hfits
  exact absurd hfits.1 (by decide)

/-- No reading of the words gives every upper immediate back: `-1` and `0xfffff` have one word. -/
theorem encode_upper_merges :
    ¬∃ read : Nat → Option Decoded, ∀ value w,
      encode ⟨32, 0⟩ (sample .lui value) 0 = some w → read w = some ((sample .lui value).said 0) := by
  rintro ⟨read, h⟩
  have hsigned := h (-1) 0xfffff0b7 (by decide)
  have hunsigned := h 0xfffff 0xfffff0b7 (by decide)
  rw [hsigned] at hunsigned
  exact absurd hunsigned (by decide)

end Unisym.Lango
