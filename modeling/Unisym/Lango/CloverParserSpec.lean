/-
# `CloverParserSpec` — what the parser makes of an instruction

`Reads definitions i i'` has one rule for every form of an instruction: `i` is what was read
before the name of the opcode, and `i'` is what the parser makes of it and of the rest.  Typing
and printing follow from the rules.
-/
import Unisym.Lango.CloverTyping

namespace Unisym.Lango

open Option

/-- A word of 64 bits with a sign -/
def Signed (n : Int) : Prop := -2 ^ 63 ≤ n ∧ n < 2 ^ 63

/-- An alignment: none, or a positive power of two -/
def Aligned (n : Nat) : Prop := n = 0 ∨ 0 < n ∧ n < 2 ^ 63 ∧ n &&& (n - 1) = 0

/-- The value that its number finds -/
def Found (definitions : List Value) (v : Value) : Prop := findValue definitions v.id = some v

/-- The rules of the instructions -/
inductive Reads (definitions : List Value) (i : Instruction) : Instruction → Prop
  | const {type : Ty} {immediate : Int} (result : i.hasResult = true) (range : Signed immediate)
      (int : type.isInteger = true) :
      Reads definitions i ({ i with opcode := .const, type, immediate }.withResult type)
  | fconst {type : Ty} {immediate : Int} (result : i.hasResult = true) (range : Signed immediate)
      (float : type.isFloat = true)
      (fits : type = .f32 → -2 ^ 31 ≤ immediate ∧ immediate ≤ 2 ^ 32 - 1) (short : type ≠ .f128) :
      Reads definitions i ({ i with opcode := .fconst, type, immediate }.withResult type)
  | fconstHigh {immediate immediateHigh : Int} (result : i.hasResult = true)
      (range : Signed immediate) (rangeHigh : Signed immediateHigh) :
      Reads definitions i
        ({ i with opcode := .fconst, type := .f128, immediate, immediateHigh }.withResult .f128)
  | local {type : Ty} {immediate : Int} {alignment : Nat} (result : i.hasResult = true)
      (range : Signed immediate) (positive : 0 < immediate) (aligned : Aligned alignment) :
      Reads definitions i ({ i with opcode := .local, type, immediate, alignment }.withResult .ptr)
  | load {type : Ty} {address : Value} {alignment : Nat} (result : i.hasResult = true)
      (found : Found definitions address) (pointer : address.type = .ptr) (type_ne : type ≠ .void)
      (aligned : Aligned alignment) :
      Reads definitions i
        ({ i with opcode := .load, type, operands := [address], alignment }.withResult type)
  | store {type : Ty} {value address : Value} {alignment : Nat} (result : i.hasResult = false)
      (found : Found definitions value) (foundAddress : Found definitions address)
      (type_ne : type ≠ .void) (same : value.type = type) (pointer : address.type = .ptr)
      (aligned : Aligned alignment) :
      Reads definitions i
        { i with opcode := .store, type, operands := [value, address], alignment }
  | mov {type : Ty} {operand : Value} (result : i.hasResult = true)
      (found : Found definitions operand) (same : operand.type = type) (type_ne : type ≠ .void) :
      Reads definitions i ({ i with opcode := .mov, type, operands := [operand] }.withResult type)
  | binary {opcode : Opcode} {type : Ty} {left right : Value}
      (op : opcode ∈ [.add, .sub, .mul, .sdiv, .udiv, .srem, .urem, .and, .or, .xor, .shl, .ashr,
        .lshr])
      (result : i.hasResult = true) (found : Found definitions left)
      (foundRight : Found definitions right) (int : type.isInteger = true) (same : left.type = type)
      (sameRight : if opcode.isShift then right.type.isInteger = true else right.type = type) :
      Reads definitions i ({ i with opcode, type, operands := [left, right] }.withResult type)
  | floatBinary {opcode : Opcode} {type : Ty} {left right : Value}
      (op : opcode ∈ [.fadd, .fsub, .fmul, .fdiv]) (result : i.hasResult = true)
      (found : Found definitions left) (foundRight : Found definitions right)
      (float : type.isFloat = true) (same : left.type = type) (sameRight : right.type = type) :
      Reads definitions i ({ i with opcode, type, operands := [left, right] }.withResult type)
  | ptradd {type : Ty} {left right : Value} (result : i.hasResult = true)
      (found : Found definitions left) (foundRight : Found definitions right)
      (pointer : left.type = .ptr) (int : right.type.isInteger = true) :
      Reads definitions i
        ({ i with opcode := .ptradd, type, operands := [left, right] }.withResult .ptr)
  | icmp {type : Ty} {left right : Value} {predicate : ICmpPredicate} (result : i.hasResult = true)
      (found : Found definitions left) (foundRight : Found definitions right)
      (comparable : type.isInteger = true ∨ type = .ptr ∧ (predicate = .eq ∨ predicate = .ne))
      (same : left.type = type) (sameRight : right.type = type) :
      Reads definitions i
        ({ i with opcode := .icmp, type, operands := [left, right], predicate }.withResult .i1)
  | fcmp {type : Ty} {left right : Value} {floatPredicate : FCmpPredicate}
      (result : i.hasResult = true) (found : Found definitions left)
      (foundRight : Found definitions right) (float : type.isFloat = true) (same : left.type = type)
      (sameRight : right.type = type) :
      Reads definitions i
        ({ i with opcode := .fcmp, type, operands := [left, right], floatPredicate }.withResult .i1)
  | integerConversion {opcode : Opcode} {type : Ty} {operand : Value}
      (op : opcode ∈ [.zext, .sext, .trunc]) (result : i.hasResult = true)
      (found : Found definitions operand) :
      Reads definitions i ({ i with opcode, type, operands := [operand] }.withResult type)
  | pointerConversion {opcode : Opcode} {type : Ty} {operand : Value}
      (op : opcode ∈ [.inttoptr, .ptrtoint]) (result : i.hasResult = true)
      (found : Found definitions operand)
      (fits : pointerConversionFits opcode operand.type type = true) :
      Reads definitions i ({ i with opcode, type, operands := [operand] }.withResult type)
  | floatConversion {opcode : Opcode} {type : Ty} {operand : Value}
      (op : opcode ∈ [.sitofp, .uitofp, .fptosi, .fptoui, .fpext, .fptrunc])
      (result : i.hasResult = true) (found : Found definitions operand)
      (fits : floatConversionFits opcode operand.type type = true) :
      Reads definitions i ({ i with opcode, type, operands := [operand] }.withResult type)
  | globaladdr {name : Text} (result : i.hasResult = true) (named : name ≠ []) :
      Reads definitions i ({ i with opcode := .globaladdr, type := .ptr, name }.withResult .ptr)
  | call {type : Ty} {callee : Text} {operands : List Value} (named : callee ≠ [])
      (found : ∀ v ∈ operands, Found definitions v) (result : i.hasResult = decide (type ≠ .void)) :
      Reads definitions i ({ i with opcode := .call, type, callee, operands }.withResult type)
  | jmp {target : Text} (result : i.hasResult = false) (named : target ≠ []) :
      Reads definitions i { i with opcode := .jmp, target }
  | conditionalJmp {condition : Value} {target targetFalse : Text} (result : i.hasResult = false)
      (found : Found definitions condition) (bit : condition.type = .i1) (named : target ≠ [])
      (namedFalse : targetFalse ≠ []) :
      Reads definitions i
        { i with opcode := .jmp, type := .i1, operands := [condition], target, targetFalse }
  | retVoid (result : i.hasResult = false) :
      Reads definitions i { i with opcode := .ret, type := .void }
  | ret {type : Ty} {operand : Value} (result : i.hasResult = false) (type_ne : type ≠ .void)
      (found : Found definitions operand) :
      Reads definitions i { i with opcode := .ret, type, operands := [operand] }

/-! ## The readers -/

variable {definitions : List Value} {i i' : Instruction} {ts ts' : Tokens}

theorem check_bind {α : Type} {b : Bool} {f : Unit → Option α} {r : α} (h : (check b).bind f = some r) :
    b = true ∧ f () = some r := by
  unfold check at h
  split at h
  · exact ⟨‹_›, h⟩
  · cases h

theorem readName_ne {name : Text} (h : readName ts = some (name, ts')) : name ≠ [] := by
  unfold readName at h
  split at h
  case isTrue => cases h
  case isFalse hne =>
    cases h
    exact fun hempty => hne (by rw [hempty]; rfl)

theorem toSigned_signed (n : Int) : Signed (toSigned n) := by
  have hlow : -2 ^ 63 ≤ Int.bmod n (2 ^ 64) := Int.le_bmod (by decide)
  have hhigh : Int.bmod n (2 ^ 64) < 2 ^ 63 := Int.bmod_lt (by decide)
  exact ⟨hlow, hhigh⟩

theorem atoinsDigits_signed : (fuel : Nat) → (inst : Int) → (text : Text) → Signed inst →
    Signed (atoinsDigits fuel inst text)
  | 0, _, _, h => h
  | _ + 1, _, [], h => h
  | fuel + 1, inst, ch :: rest, h => by
    unfold atoinsDigits
    split
    · exact atoinsDigits_signed fuel _ rest (toSigned_signed _)
    · exact h

theorem atoins_signed (text : Text) : Signed (atoins text) := by
  have hzero : Signed 0 := ⟨by decide, by decide⟩
  unfold atoins
  split
  · exact toSigned_signed _
  · exact atoinsDigits_signed _ _ _ hzero
  · exact atoinsDigits_signed _ _ _ hzero

theorem readNumber_signed {n : Int} (h : readNumber ts = some (n, ts')) : Signed n := by
  unfold readNumber at h
  split at h
  · cases h
  · cases h
    exact atoins_signed _

theorem readElementCount_range {n : Int} (h : readElementCount ts = some (n, ts')) :
    Signed n ∧ 0 < n := by
  unfold readElementCount at h
  split at h
  · obtain ⟨⟨n', ts⟩, hnumber, h⟩ := bind_eq_some_iff.mp h
    obtain ⟨hcheck, h⟩ := check_bind h
    cases h
    exact ⟨readNumber_signed hnumber, of_decide_eq_true hcheck⟩
  · cases h
    exact ⟨⟨by decide, by decide⟩, by decide⟩

theorem readOptionalAlignment_aligned {n : Nat} (h : readOptionalAlignment ts = some (n, ts')) :
    Aligned n := by
  unfold readOptionalAlignment at h
  split at h
  · cases h
    exact .inl rfl
  · obtain ⟨⟨alignment, ts⟩, hnumber, h⟩ := bind_eq_some_iff.mp h
    obtain ⟨hcheck, h⟩ := check_bind h
    cases h
    obtain ⟨hlow, hhigh⟩ := readNumber_signed hnumber
    simp only [Bool.and_eq_true, decide_eq_true_eq] at hcheck
    exact .inr ⟨by omega, by omega, hcheck.2⟩

theorem findValue_found {id : Nat} {v : Value} (h : findValue definitions id = some v) :
    Found definitions v := by
  have hsame : v.id = id := by
    unfold findValue at h
    exact of_decide_eq_true (List.find?_some (p := fun defined : Value => defined.id = id) h)
  unfold Found
  rw [hsame]
  exact h

theorem readValue_found {v : Value} (h : readValue definitions ts = some (v, ts')) :
    Found definitions v := by
  obtain ⟨⟨id, ts⟩, hid, h⟩ := bind_eq_some_iff.mp h
  obtain ⟨w, hfind, h⟩ := bind_eq_some_iff.mp h
  cases h
  exact findValue_found hfind

theorem readBinaryOperands_found {v w : Value}
    (h : readBinaryOperands definitions ts = some ((v, w), ts')) :
    Found definitions v ∧ Found definitions w := by
  obtain ⟨⟨left, ts⟩, hleft, h⟩ := bind_eq_some_iff.mp h
  obtain ⟨ts, -, h⟩ := bind_eq_some_iff.mp h
  obtain ⟨⟨right, ts⟩, hright, h⟩ := bind_eq_some_iff.mp h
  cases h
  exact ⟨readValue_found hleft, readValue_found hright⟩

theorem readBlockName_ne {name : Text} (h : readBlockName ts = some (name, ts')) : name ≠ [] := by
  obtain ⟨ts, -, h⟩ := bind_eq_some_iff.mp h
  exact readName_ne h

theorem readOperands_found : (fuel : Nat) → {ts ts' : Tokens} → {values : List Value} →
    readOperands definitions fuel ts = some (values, ts') → ∀ v ∈ values, Found definitions v
  | 0, _, _, _, h => by cases h
  | fuel + 1, ts, ts', values, h => by
    unfold readOperands at h
    split at h
    · cases h
      nofun
    · obtain ⟨⟨type, ts⟩, -, h⟩ := bind_eq_some_iff.mp h
      obtain ⟨⟨value, ts⟩, hvalue, h⟩ := bind_eq_some_iff.mp h
      obtain ⟨u, -, h⟩ := bind_eq_some_iff.mp h
      have hfound := readValue_found hvalue
      split at h
      · cases h
        exact List.forall_mem_singleton.mpr hfound
      · obtain ⟨ts, -, h⟩ := bind_eq_some_iff.mp h
        obtain ⟨⟨rest, ts⟩, hrest, h⟩ := bind_eq_some_iff.mp h
        cases h
        exact List.forall_mem_cons.mpr ⟨hfound, readOperands_found fuel hrest⟩

theorem readCallOperands_found {values : List Value}
    (h : readCallOperands definitions ts = some (values, ts')) : ∀ v ∈ values, Found definitions v := by
  obtain ⟨ts, -, h⟩ := bind_eq_some_iff.mp h
  obtain ⟨⟨operands, ts⟩, hoperands, h⟩ := bind_eq_some_iff.mp h
  obtain ⟨ts, -, h⟩ := bind_eq_some_iff.mp h
  cases h
  exact readOperands_found _ hoperands

/-! ## The forms -/

variable {opcode : Opcode}

theorem parseConst_reads (h : parseConst i ts = some (i', ts')) : Reads definitions i i' := by
  obtain ⟨hresult, h⟩ := check_bind h
  obtain ⟨⟨type, ts⟩, -, h⟩ := bind_eq_some_iff.mp h
  obtain ⟨⟨immediate, ts⟩, hnumber, h⟩ := bind_eq_some_iff.mp h
  obtain ⟨hint, h⟩ := check_bind h
  cases h
  exact .const hresult (readNumber_signed hnumber) hint

theorem parseFConst_reads (h : parseFConst i ts = some (i', ts')) : Reads definitions i i' := by
  obtain ⟨hresult, h⟩ := check_bind h
  obtain ⟨⟨type, ts⟩, -, h⟩ := bind_eq_some_iff.mp h
  obtain ⟨⟨immediate, ts⟩, hnumber, h⟩ := bind_eq_some_iff.mp h
  obtain ⟨hfloat, h⟩ := check_bind h
  obtain ⟨hfits, h⟩ := check_bind h
  have hrange := readNumber_signed hnumber
  split at h
  case isTrue hhigh =>
    obtain ⟨ts, -, h⟩ := bind_eq_some_iff.mp h
    obtain ⟨⟨immediateHigh, ts⟩, hnumberHigh, h⟩ := bind_eq_some_iff.mp h
    cases h
    subst hhigh
    exact .fconstHigh hresult hrange (readNumber_signed hnumberHigh)
  case isFalse hshort =>
    cases h
    refine .fconst hresult hrange hfloat ?_ hshort
    intro hf32
    simp only [hf32, decide_true, Bool.true_and, Bool.not_eq_true', Bool.or_eq_false_iff,
      Bool.and_eq_false_iff, decide_eq_false_iff_not] at hfits
    omega

theorem parseLocal_reads (h : parseLocal i ts = some (i', ts')) : Reads definitions i i' := by
  obtain ⟨hresult, h⟩ := check_bind h
  obtain ⟨⟨type, ts⟩, -, h⟩ := bind_eq_some_iff.mp h
  obtain ⟨⟨immediate, ts⟩, hcount, h⟩ := bind_eq_some_iff.mp h
  obtain ⟨⟨alignment, ts⟩, halignment, h⟩ := bind_eq_some_iff.mp h
  cases h
  obtain ⟨hrange, hpositive⟩ := readElementCount_range hcount
  exact .local hresult hrange hpositive (readOptionalAlignment_aligned halignment)

theorem parseLoad_reads (h : parseLoad definitions i ts = some (i', ts')) : Reads definitions i i' := by
  obtain ⟨hresult, h⟩ := check_bind h
  obtain ⟨⟨type, ts⟩, -, h⟩ := bind_eq_some_iff.mp h
  obtain ⟨ts, -, h⟩ := bind_eq_some_iff.mp h
  obtain ⟨⟨address, ts⟩, hvalue, h⟩ := bind_eq_some_iff.mp h
  obtain ⟨htypes, h⟩ := check_bind h
  obtain ⟨⟨alignment, ts⟩, halignment, h⟩ := bind_eq_some_iff.mp h
  cases h
  simp only [Bool.and_eq_true, decide_eq_true_eq] at htypes
  exact .load hresult (readValue_found hvalue) htypes.1 htypes.2
    (readOptionalAlignment_aligned halignment)

theorem parseStore_reads (h : parseStore definitions i ts = some (i', ts')) :
    Reads definitions i i' := by
  obtain ⟨hresult, h⟩ := check_bind h
  obtain ⟨⟨type, ts⟩, -, h⟩ := bind_eq_some_iff.mp h
  obtain ⟨⟨⟨value, address⟩, ts⟩, hvalues, h⟩ := bind_eq_some_iff.mp h
  obtain ⟨htypes, h⟩ := check_bind h
  obtain ⟨⟨alignment, ts⟩, halignment, h⟩ := bind_eq_some_iff.mp h
  cases h
  obtain ⟨hvalue, haddress⟩ := readBinaryOperands_found hvalues
  simp only [Bool.not_eq_true'] at hresult
  simp only [Bool.and_eq_true, decide_eq_true_eq] at htypes
  exact .store hresult hvalue haddress htypes.1.1 htypes.1.2 htypes.2
    (readOptionalAlignment_aligned halignment)

theorem parseMov_reads (h : parseMov definitions i ts = some (i', ts')) : Reads definitions i i' := by
  obtain ⟨hresult, h⟩ := check_bind h
  obtain ⟨⟨type, ts⟩, -, h⟩ := bind_eq_some_iff.mp h
  obtain ⟨⟨operand, ts⟩, hvalue, h⟩ := bind_eq_some_iff.mp h
  obtain ⟨htypes, h⟩ := check_bind h
  cases h
  simp only [Bool.and_eq_true, decide_eq_true_eq] at htypes
  exact .mov hresult (readValue_found hvalue) htypes.1 htypes.2

theorem parseBinary_reads
    (op : opcode ∈ [Opcode.add, .sub, .mul, .sdiv, .udiv, .srem, .urem, .and, .or, .xor, .shl, .ashr,
      .lshr])
    (h : parseBinary definitions i opcode ts = some (i', ts')) : Reads definitions i i' := by
  obtain ⟨hresult, h⟩ := check_bind h
  obtain ⟨⟨type, ts⟩, -, h⟩ := bind_eq_some_iff.mp h
  obtain ⟨⟨⟨left, right⟩, ts⟩, hvalues, h⟩ := bind_eq_some_iff.mp h
  obtain ⟨htypes, h⟩ := check_bind h
  cases h
  obtain ⟨hleft, hright⟩ := readBinaryOperands_found hvalues
  simp only [Bool.and_eq_true, decide_eq_true_eq] at htypes
  refine .binary op hresult hleft hright htypes.1.1 htypes.1.2 ?_
  have hlast := htypes.2
  split at hlast
  · rw [if_pos ‹_›]
    exact hlast
  · rw [if_neg ‹_›]
    exact of_decide_eq_true hlast

theorem parseFloatBinary_reads (op : opcode ∈ [Opcode.fadd, .fsub, .fmul, .fdiv])
    (h : parseFloatBinary definitions i opcode ts = some (i', ts')) : Reads definitions i i' := by
  obtain ⟨hresult, h⟩ := check_bind h
  obtain ⟨⟨type, ts⟩, -, h⟩ := bind_eq_some_iff.mp h
  obtain ⟨⟨⟨left, right⟩, ts⟩, hvalues, h⟩ := bind_eq_some_iff.mp h
  obtain ⟨htypes, h⟩ := check_bind h
  cases h
  obtain ⟨hleft, hright⟩ := readBinaryOperands_found hvalues
  simp only [Bool.and_eq_true, decide_eq_true_eq] at htypes
  exact .floatBinary op hresult hleft hright htypes.1.1 htypes.1.2 htypes.2

theorem parsePtrAdd_reads (h : parsePtrAdd definitions i ts = some (i', ts')) :
    Reads definitions i i' := by
  obtain ⟨hresult, h⟩ := check_bind h
  obtain ⟨⟨type, ts⟩, -, h⟩ := bind_eq_some_iff.mp h
  obtain ⟨⟨⟨left, right⟩, ts⟩, hvalues, h⟩ := bind_eq_some_iff.mp h
  obtain ⟨htypes, h⟩ := check_bind h
  cases h
  obtain ⟨hleft, hright⟩ := readBinaryOperands_found hvalues
  simp only [Bool.and_eq_true, decide_eq_true_eq] at htypes
  exact .ptradd hresult hleft hright htypes.1 htypes.2

theorem parseICmp_reads (h : parseICmp definitions i ts = some (i', ts')) :
    Reads definitions i i' := by
  obtain ⟨hresult, h⟩ := check_bind h
  obtain ⟨⟨predicate, ts⟩, -, h⟩ := bind_eq_some_iff.mp h
  obtain ⟨⟨type, ts⟩, -, h⟩ := bind_eq_some_iff.mp h
  obtain ⟨⟨⟨left, right⟩, ts⟩, hvalues, h⟩ := bind_eq_some_iff.mp h
  obtain ⟨htypes, h⟩ := check_bind h
  obtain ⟨hpredicate, h⟩ := check_bind h
  cases h
  obtain ⟨hleft, hright⟩ := readBinaryOperands_found hvalues
  simp only [Bool.and_eq_true, Bool.or_eq_true, decide_eq_true_eq] at htypes
  refine .icmp hresult hleft hright ?_ htypes.1.2 htypes.2
  rcases htypes.1.1 with hint | hptr
  · exact .inl hint
  · refine .inr ⟨hptr, ?_⟩
    simp only [hptr, decide_true, Bool.true_and, Bool.not_eq_true', Bool.and_eq_false_iff,
      decide_eq_false_iff_not, not_not] at hpredicate
    exact hpredicate

theorem parseFCmp_reads (h : parseFCmp definitions i ts = some (i', ts')) :
    Reads definitions i i' := by
  obtain ⟨hresult, h⟩ := check_bind h
  obtain ⟨⟨predicate, ts⟩, -, h⟩ := bind_eq_some_iff.mp h
  obtain ⟨⟨type, ts⟩, -, h⟩ := bind_eq_some_iff.mp h
  obtain ⟨⟨⟨left, right⟩, ts⟩, hvalues, h⟩ := bind_eq_some_iff.mp h
  obtain ⟨htypes, h⟩ := check_bind h
  cases h
  obtain ⟨hleft, hright⟩ := readBinaryOperands_found hvalues
  simp only [Bool.and_eq_true, decide_eq_true_eq] at htypes
  exact .fcmp hresult hleft hright htypes.1.1 htypes.1.2 htypes.2

/-- A conversion is read as one of its opcode from the type of its operand. -/
theorem parseConversion_eq {fits : Ty → Ty → Bool}
    (h : parseConversion definitions i fits opcode ts = some (i', ts')) :
    ∃ type operand, i' = { i with opcode, type, operands := [operand] }.withResult type ∧
      i.hasResult = true ∧ Found definitions operand ∧ fits operand.type type = true := by
  obtain ⟨hresult, h⟩ := check_bind h
  obtain ⟨⟨⟨sourceType, operand, type⟩, ts⟩, hread, h⟩ := bind_eq_some_iff.mp h
  obtain ⟨htypes, h⟩ := check_bind h
  cases h
  simp only [Bool.and_eq_true, decide_eq_true_eq] at htypes
  obtain ⟨⟨sourceType', ts⟩, -, hread⟩ := bind_eq_some_iff.mp hread
  obtain ⟨⟨operand', ts⟩, hvalue, hread⟩ := bind_eq_some_iff.mp hread
  obtain ⟨ts, -, hread⟩ := bind_eq_some_iff.mp hread
  obtain ⟨⟨type', ts⟩, -, hread⟩ := bind_eq_some_iff.mp hread
  cases hread
  refine ⟨type, operand, rfl, hresult, readValue_found hvalue, ?_⟩
  rw [htypes.1]
  exact htypes.2

theorem parseIntegerConversion_reads (op : opcode ∈ [Opcode.zext, .sext, .trunc])
    (h : parseIntegerConversion definitions i opcode ts = some (i', ts')) :
    Reads definitions i i' := by
  obtain ⟨type, operand, rfl, hresult, hfound, -⟩ := parseConversion_eq h
  exact .integerConversion op hresult hfound

theorem parsePointerConversion_reads (op : opcode ∈ [Opcode.inttoptr, .ptrtoint])
    (h : parsePointerConversion definitions i opcode ts = some (i', ts')) :
    Reads definitions i i' := by
  obtain ⟨type, operand, rfl, hresult, hfound, hfits⟩ := parseConversion_eq h
  exact .pointerConversion op hresult hfound hfits

theorem parseFloatConversion_reads
    (op : opcode ∈ [Opcode.sitofp, .uitofp, .fptosi, .fptoui, .fpext, .fptrunc])
    (h : parseFloatConversion definitions i opcode ts = some (i', ts')) :
    Reads definitions i i' := by
  obtain ⟨type, operand, rfl, hresult, hfound, hfits⟩ := parseConversion_eq h
  exact .floatConversion op hresult hfound hfits

theorem parseGlobalAddr_reads (h : parseGlobalAddr i ts = some (i', ts')) :
    Reads definitions i i' := by
  obtain ⟨hresult, h⟩ := check_bind h
  obtain ⟨ts, -, h⟩ := bind_eq_some_iff.mp h
  obtain ⟨⟨name, ts⟩, hname, h⟩ := bind_eq_some_iff.mp h
  cases h
  exact .globaladdr hresult (readName_ne hname)

theorem parseCall_reads (h : parseCall definitions i ts = some (i', ts')) :
    Reads definitions i i' := by
  obtain ⟨⟨type, ts⟩, -, h⟩ := bind_eq_some_iff.mp h
  obtain ⟨ts, -, h⟩ := bind_eq_some_iff.mp h
  obtain ⟨⟨callee, ts⟩, hname, h⟩ := bind_eq_some_iff.mp h
  obtain ⟨⟨operands, ts⟩, hoperands, h⟩ := bind_eq_some_iff.mp h
  obtain ⟨hresult, h⟩ := check_bind h
  cases h
  refine .call (readName_ne hname) (readCallOperands_found hoperands) ?_
  have hresult := of_decide_eq_true hresult
  by_cases htype : type = .void
  · simp only [htype, decide_true] at hresult
    simp only [htype, ne_eq, not_true_eq_false, decide_false]
    exact (Bool.eq_false_or_eq_true i.hasResult).resolve_left fun ht => hresult ht.symm
  · simp only [htype, decide_false] at hresult
    simp only [ne_eq, htype, not_false_eq_true, decide_true]
    exact (Bool.eq_false_or_eq_true i.hasResult).resolve_right fun hf => hresult hf.symm

theorem parseJmp_reads (h : parseJmp definitions i ts = some (i', ts')) : Reads definitions i i' := by
  obtain ⟨hresult, h⟩ := check_bind h
  simp only [Bool.not_eq_true'] at hresult
  split at h
  case isTrue =>
    obtain ⟨⟨target, ts⟩, hname, h⟩ := bind_eq_some_iff.mp h
    cases h
    exact .jmp hresult (readBlockName_ne hname)
  case isFalse =>
    obtain ⟨⟨type, ts⟩, -, h⟩ := bind_eq_some_iff.mp h
    obtain ⟨htype, h⟩ := check_bind h
    obtain ⟨⟨condition, ts⟩, hvalue, h⟩ := bind_eq_some_iff.mp h
    obtain ⟨ts, -, h⟩ := bind_eq_some_iff.mp h
    obtain ⟨⟨target, ts⟩, hname, h⟩ := bind_eq_some_iff.mp h
    obtain ⟨ts, -, h⟩ := bind_eq_some_iff.mp h
    obtain ⟨⟨targetFalse, ts⟩, hnameFalse, h⟩ := bind_eq_some_iff.mp h
    obtain ⟨hbit, h⟩ := check_bind h
    cases h
    cases of_decide_eq_true htype
    exact .conditionalJmp hresult (readValue_found hvalue)
      (of_decide_eq_true hbit) (readBlockName_ne hname)
      (readBlockName_ne hnameFalse)

theorem parseRet_reads (h : parseRet definitions i ts = some (i', ts')) : Reads definitions i i' := by
  obtain ⟨hresult, h⟩ := check_bind h
  simp only [Bool.not_eq_true'] at hresult
  obtain ⟨⟨type, ts⟩, -, h⟩ := bind_eq_some_iff.mp h
  dsimp only at h
  split at h
  case isTrue htype =>
    cases h
    subst htype
    exact .retVoid hresult
  case isFalse htype =>
    obtain ⟨⟨operand, ts⟩, hvalue, h⟩ := bind_eq_some_iff.mp h
    cases h
    exact .ret hresult htype (readValue_found hvalue)

/-- What the parser makes of an operation is by one of the rules. -/
theorem parseOperation_reads (h : parseOperation definitions i ts = some (i', ts')) :
    Reads definitions i i' := by
  obtain ⟨⟨operation, ts⟩, -, h⟩ := bind_eq_some_iff.mp h
  obtain ⟨form, hform, h⟩ := bind_eq_some_iff.mp h
  have hforms : ∀ form ∈ instructionForms definitions i, ∀ ts,
      form.2 ts = some (i', ts') → Reads definitions i i' := by
    simp only [instructionForms, List.forall_mem_cons]
    have binary {opcode : Opcode} (op) (ts : Tokens) := @parseBinary_reads definitions i i' ts ts' opcode op
    have floatBinary {opcode : Opcode} (op) (ts : Tokens) :=
      @parseFloatBinary_reads definitions i i' ts ts' opcode op
    have integer {opcode : Opcode} (op) (ts : Tokens) :=
      @parseIntegerConversion_reads definitions i i' ts ts' opcode op
    have pointer {opcode : Opcode} (op) (ts : Tokens) :=
      @parsePointerConversion_reads definitions i i' ts ts' opcode op
    have float {opcode : Opcode} (op) (ts : Tokens) :=
      @parseFloatConversion_reads definitions i i' ts ts' opcode op
    exact ⟨fun _ => parseConst_reads, fun _ => parseFConst_reads, fun _ => parseLocal_reads,
      fun _ => parseLoad_reads, fun _ => parseStore_reads, fun _ => parseMov_reads,
      binary (by decide), binary (by decide), binary (by decide), binary (by decide),
      binary (by decide), binary (by decide), binary (by decide), binary (by decide),
      binary (by decide), binary (by decide), binary (by decide), binary (by decide),
      binary (by decide), floatBinary (by decide), floatBinary (by decide),
      floatBinary (by decide), floatBinary (by decide), fun _ => parsePtrAdd_reads,
      fun _ => parseICmp_reads, fun _ => parseFCmp_reads, integer (by decide),
      integer (by decide), integer (by decide), pointer (by decide), pointer (by decide),
      float (by decide), float (by decide), float (by decide), float (by decide),
      float (by decide), float (by decide), fun _ => parseGlobalAddr_reads,
      fun _ => parseCall_reads, fun _ => parseJmp_reads, fun _ => parseRet_reads, nofun⟩
  exact hforms form (List.mem_of_find?_eq_some hform) ts h

end Unisym.Lango
