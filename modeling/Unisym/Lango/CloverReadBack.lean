/-
# `CloverReadBack` — the parser on printed tokens

What the readers make of the tokens of a number, a type or a value, and rule by rule of `Reads`
what the parser makes of the tokens of an operation.
-/
import Unisym.Lango.Atoins
import Unisym.Lango.CloverTokens
import Unisym.Lango.CloverModuleSpec
import Unisym.Library.Steps

namespace Unisym.Lango

open List

variable {definitions : List Value} {i i' : Instruction} {scope scope' : Scope} {ts : Tokens}

/-! ## Numbers -/

theorem isDigit_toDigits (n : Nat) : ∀ ch ∈ Nat.toDigits 10 n, ch.isDigit = true := fun _ hch =>
  Nat.isDigit_of_mem_toDigits (by decide) (by decide) hch

theorem length_toDigits {n : Nat} (h : n < 10 ^ 20) : (Nat.toDigits 10 n).length ≤ 20 :=
  (Nat.length_toDigits_le_iff (by decide) (by decide)).mpr h

theorem toSigned_of_signed {n : Int} (h : Signed n) : toSigned n = n := toSigned_of_range h.1 h.2

theorem atoins_toDigits {n : Nat} (h : n < 10 ^ 20) : atoins (Nat.toDigits 10 n) = toSigned n := by
  rw [atoins_digits (length_toDigits h) (isDigit_toDigits n), Nat.ofDigitChars_ten_toDigits]

theorem atoins_minus_toDigits {n : Nat} (h : n < 10 ^ 20) :
    atoins ('-' :: Nat.toDigits 10 n) = toSigned (-(n : Int)) := by
  rw [atoins_minus_digits (length_toDigits h) (isDigit_toDigits n), Nat.ofDigitChars_ten_toDigits]

theorem reference_toDigits (n : Nat) : reference (Nat.toDigits 10 n) = Nat.toDigits 10 n :=
  takeWhile_eq_self_iff.mpr fun ch hch =>
    decide_eq_true (digit_word (isDigit_toDigits n ch hch)).2.1

/-! ## Reading back -/

theorem readNumber_unsigned {n : Nat} (h : n < 2 ^ 63) :
    readNumber (outUnsigned n :: ts) = some ((n : Int), ts) := by
  have hempty : (token (outUnsigned n :: ts)).isEmpty = false :=
    isEmpty_eq_false_iff.mpr Nat.toDigits_ne_nil
  have hsigned : toSigned n = n := toSigned_of_signed ⟨by omega, by omega⟩
  rw [readNumber, hempty, if_neg Bool.false_ne_true]
  show some (atoins (reference (Nat.toDigits 10 n)), ts) = _
  rw [reference_toDigits, atoins_toDigits (by omega), hsigned]

theorem readNumber_signed_back {n : Int} (h : Signed n) :
    readNumber (outSigned n :: ts) = some (n, ts) := by
  have hbound : n.natAbs < 10 ^ 20 := by
    obtain ⟨hlow, hhigh⟩ := h
    omega
  by_cases hneg : n < 0
  · have hempty : (token (outSigned n :: ts)).isEmpty = false := by
      rw [outSigned, if_pos hneg]
      rfl
    have hreference : reference ('-' :: Nat.toDigits 10 n.natAbs) = '-' :: Nat.toDigits 10 n.natAbs := by
      rw [reference, takeWhile_cons_of_pos (by decide)]
      exact congrArg _ (reference_toDigits _)
    have hminus : -((n.natAbs : Nat) : Int) = n := by omega
    rw [readNumber, hempty, if_neg Bool.false_ne_true, outSigned, if_pos hneg]
    show some (atoins (reference ('-' :: Nat.toDigits 10 n.natAbs)), ts) = _
    rw [hreference, atoins_minus_toDigits hbound, hminus]
    exact congrArg (fun k => some (k, ts)) (toSigned_of_signed h)
  · have hnat : ((n.natAbs : Nat) : Int) = n := by omega
    have hlt : n.natAbs < 2 ^ 63 := by
      obtain ⟨hlow, hhigh⟩ := h
      omega
    have hread := @readNumber_unsigned ts _ hlt
    rw [outSigned, if_neg hneg]
    rw [hnat] at hread
    exact hread

@[simp] theorem check_true : check true = some () := rfl

@[simp] theorem readType_name (type : Ty) : readType (typeName type :: ts) = some (type, ts) := by
  cases type <;> rfl

theorem readPredicate_name (predicate : ICmpPredicate) :
    readPredicate (predicateName predicate :: ts) = some (predicate, ts) := by
  cases predicate <;> rfl

theorem readFloatPredicate_name (predicate : FCmpPredicate) :
    readFloatPredicate (floatPredicateName predicate :: ts) = some (predicate, ts) := by
  cases predicate <;> rfl

theorem readName_back {name : Text} (h : name ≠ []) : readName (name :: ts) = some (name, ts) := by
  have hempty : (token (name :: ts)).isEmpty = false := isEmpty_eq_false_iff.mpr h
  rw [readName, hempty, if_neg Bool.false_ne_true]
  rfl

theorem readResultID_back {id : Nat} (h : id < 2 ^ 32) :
    readResultID (['%'] :: outUnsigned id :: ts) = some (id, ts) := by
  have hnumber : readNumber (outUnsigned id :: ts) = some ((id : Int), ts) :=
    readNumber_unsigned (by omega)
  have hmod : ((id : Int) % 2 ^ 32).toNat = id := by omega
  have hcheck : check (decide ((0 : Int) ≤ id)) = some () := if_pos (decide_eq_true (by omega))
  have hexpect : expect "%" (['%'] :: outUnsigned id :: ts) = some (outUnsigned id :: ts) := rfl
  simp only [readResultID, hexpect, hnumber, hcheck, some_bind, hmod]

theorem readValue_back {value : Value} (hfound : Found definitions value) (h : value.id < 2 ^ 32) :
    readValue definitions (valueTokens value ++ ts) = some (value, ts) := by
  have hid : readResultID (valueTokens value ++ ts) = some (value.id, ts) := readResultID_back h
  have hfind : findValue definitions value.id = some value := hfound
  simp only [readValue, hid, hfind, some_bind]

theorem readBinaryOperands_back {left right : Value} (hleft : Found definitions left)
    (hright : Found definitions right) (hl : left.id < 2 ^ 32) (hr : right.id < 2 ^ 32) :
    readBinaryOperands definitions (valueTokens left ++ ([','] :: (valueTokens right ++ ts))) =
      some ((left, right), ts) := by
  have hexpect : expect "," ([','] :: (valueTokens right ++ ts)) = some (valueTokens right ++ ts) := rfl
  simp only [readBinaryOperands, readValue_back hleft hl, hexpect, readValue_back hright hr,
    some_bind]

theorem readBlockName_back {name : Text} (h : name ≠ []) :
    readBlockName (blockNameTokens name ++ ts) = some (name, ts) := readName_back h

/-- What is behind an instruction or a number of elements does not go on with them. -/
structure Behind (ts : Tokens) : Prop where
  align : is ts "align" = false
  comma : is ts "," = false

theorem readElementCount_back {n : Int} (h : Signed n) (hpos : 0 < n) (hts : is ts "," = false) :
    readElementCount (countTokens n ++ ts) = some (n, ts) := by
  unfold countTokens
  split
  · have hcomma : is ([','] :: outSigned n :: ts) "," = true := rfl
    have hcheck : check (decide (0 < n)) = some () := if_pos (decide_eq_true hpos)
    show readElementCount ([','] :: outSigned n :: ts) = _
    rw [readElementCount, if_pos hcomma, tail_cons, readNumber_signed_back h]
    simp only [some_bind, hcheck]
  · have hone : n = 1 := by omega
    rw [nil_append, readElementCount, hts, if_neg Bool.false_ne_true, hone]

theorem readOptionalAlignment_back {n : Nat} (h : Aligned n) (hts : is ts "align" = false) :
    readOptionalAlignment (alignmentTokens n ++ ts) = some (n, ts) := by
  unfold alignmentTokens
  rcases h with rfl | ⟨hpos, hlt, hpower⟩
  · rw [if_neg (fun h => h rfl), nil_append, readOptionalAlignment, hts]
    rfl
  · have halign : is ("align".toList :: outUnsigned n :: ts) "align" = true := rfl
    have hcheck : check (decide ((0 : Int) < n) && decide (n &&& (n - 1) = 0)) = some () :=
      if_pos (Bool.and_eq_true_iff.mpr ⟨decide_eq_true (by omega), decide_eq_true hpower⟩)
    rw [if_pos (by omega)]
    show readOptionalAlignment ("align".toList :: outUnsigned n :: ts) = _
    rw [readOptionalAlignment, halign, tail_cons, readNumber_unsigned hlt]
    simp only [Bool.not_true, Bool.false_eq_true, if_false, some_bind, Int.toNat_natCast, hcheck]

/-! ## Operations -/

/-- What reads the rest of an instruction with this opcode -/
def operationForm (definitions : List Value) (i : Instruction) :
    Opcode → Tokens → Option (Instruction × Tokens)
  | .const => parseConst i
  | .fconst => parseFConst i
  | .local => parseLocal i
  | .load => parseLoad definitions i
  | .store => parseStore definitions i
  | .mov => parseMov definitions i
  | .ptradd => parsePtrAdd definitions i
  | .icmp => parseICmp definitions i
  | .fcmp => parseFCmp definitions i
  | .fadd => parseFloatBinary definitions i .fadd
  | .fsub => parseFloatBinary definitions i .fsub
  | .fmul => parseFloatBinary definitions i .fmul
  | .fdiv => parseFloatBinary definitions i .fdiv
  | .zext => parseIntegerConversion definitions i .zext
  | .sext => parseIntegerConversion definitions i .sext
  | .trunc => parseIntegerConversion definitions i .trunc
  | .inttoptr => parsePointerConversion definitions i .inttoptr
  | .ptrtoint => parsePointerConversion definitions i .ptrtoint
  | .sitofp => parseFloatConversion definitions i .sitofp
  | .uitofp => parseFloatConversion definitions i .uitofp
  | .fptosi => parseFloatConversion definitions i .fptosi
  | .fptoui => parseFloatConversion definitions i .fptoui
  | .fpext => parseFloatConversion definitions i .fpext
  | .fptrunc => parseFloatConversion definitions i .fptrunc
  | .globaladdr => parseGlobalAddr i
  | .call => parseCall definitions i
  | .jmp => parseJmp definitions i
  | .ret => parseRet definitions i
  | opcode => parseBinary definitions i opcode

/-- The names in the table of the forms -/
def formNames : List String :=
  ["const", "fconst", "local", "load", "store", "mov", "add", "sub", "mul", "sdiv", "udiv", "srem",
    "urem", "and", "or", "xor", "shl", "ashr", "lshr", "fadd", "fsub", "fmul", "fdiv", "ptradd", "icmp",
    "fcmp", "zext", "sext", "trunc", "inttoptr", "ptrtoint", "sitofp", "uitofp", "fptosi", "fptoui",
    "fpext", "fptrunc", "globaladdr", "call", "jmp", "ret"]

/-- The place of an opcode in the table -/
def formPosition : Opcode → Nat
  | .const => 0 | .fconst => 1 | .local => 2 | .load => 3 | .store => 4 | .mov => 5 | .add => 6
  | .sub => 7 | .mul => 8 | .sdiv => 9 | .udiv => 10 | .srem => 11 | .urem => 12 | .and => 13
  | .or => 14 | .xor => 15 | .shl => 16 | .ashr => 17 | .lshr => 18 | .fadd => 19 | .fsub => 20
  | .fmul => 21 | .fdiv => 22 | .ptradd => 23 | .icmp => 24 | .fcmp => 25 | .zext => 26
  | .sext => 27 | .trunc => 28 | .inttoptr => 29 | .ptrtoint => 30 | .sitofp => 31
  | .uitofp => 32 | .fptosi => 33 | .fptoui => 34 | .fpext => 35 | .fptrunc => 36
  | .globaladdr => 37 | .call => 38 | .jmp => 39 | .ret => 40

theorem formPosition_names (opcode : Opcode) :
    (formNames.findIdx? fun name => reference (opcodeName opcode) = name.toList) =
      some (formPosition opcode) := by
  cases opcode <;> decide

theorem find?_fst {α : Type} {q : String → Bool} : {entries : List (String × α)} → {n : Nat} →
    (entries.map (·.1)).findIdx? q = some n → entries.find? (fun entry => q entry.1) = entries[n]?
  | [], _, h => by cases h
  | entry :: entries, n, h => by
    rw [map_cons, findIdx?_cons] at h
    rw [find?_cons]
    cases hq : q entry.1 with
    | true =>
      rw [hq] at h
      cases h
      rfl
    | false =>
      rw [hq, if_neg Bool.false_ne_true] at h
      obtain ⟨k, hk, rfl⟩ := Option.map_eq_some_iff.mp h
      exact find?_fst hk

theorem parseOperation_name (opcode : Opcode) :
    parseOperation definitions i (opcodeName opcode :: ts) = operationForm definitions i opcode ts := by
  have hfind : ((instructionForms definitions i).find? fun form =>
      reference (opcodeName opcode) = form.1.toList) =
        (instructionForms definitions i)[formPosition opcode]? := by
    have hposition := formPosition_names opcode
    rw [show formNames = (instructionForms definitions i).map (·.1) from rfl] at hposition
    exact @find?_fst _ (fun name => reference (opcodeName opcode) = name.toList) _ _ hposition
  have hread : readName (opcodeName opcode :: ts) = some (opcodeName opcode, ts) :=
    readName_back (by cases opcode <;> nofun)
  have hoperation : parseOperation definitions i (opcodeName opcode :: ts) =
      ((instructionForms definitions i)[formPosition opcode]?).bind fun form => form.2 ts := by
    unfold parseOperation
    rw [hread]
    exact congrArg (Option.bind · fun form => form.2 ts) hfind
  rw [hoperation]
  cases opcode <;> rfl

theorem readOperands_back : (fuel : Nat) → (vs : List Value) → vs.length < fuel →
    (∀ v ∈ vs, Found definitions v ∧ v.id < 2 ^ 32) →
    readOperands definitions fuel (listTokens (vs.map argumentTokens) ++ [')'] :: ts) =
      some (vs, [')'] :: ts)
  | 0, _, hlt, _ => absurd hlt (Nat.not_lt_zero _)
  | fuel + 1, [], _, _ => by
    have hclose : is ([')'] :: ts) ")" = true := rfl
    show readOperands definitions (fuel + 1) ([')'] :: ts) = _
    rw [readOperands, if_pos hclose]
  | fuel + 1, v :: vs, hlt, h => by
    obtain ⟨⟨hfound, hid⟩, hvs⟩ := forall_mem_cons.mp h
    have hopen (type : Ty) (ts : Tokens) : is (typeName type :: ts) ")" = false := by
      cases type <;> rfl
    cases vs with
    | nil =>
      have hclose : is ([')'] :: ts) ")" = true := rfl
      show readOperands definitions (fuel + 1) (typeName v.type :: (valueTokens v ++ [')'] :: ts)) = _
      rw [readOperands, hopen, if_neg Bool.false_ne_true, readType_name]
      simp only [some_bind, readValue_back hfound hid, decide_true,
        check_true, hclose, if_true]
    | cons w vs =>
      have hrest := readOperands_back fuel (w :: vs) (Nat.lt_of_succ_lt_succ hlt) hvs
      have hcomma (ts : Tokens) : is ([','] :: ts) ")" = false := rfl
      have hexpect (ts : Tokens) : expect "," ([','] :: ts) = some ts := rfl
      have htokens : listTokens ((v :: w :: vs).map argumentTokens) ++ [')'] :: ts =
          typeName v.type :: (valueTokens v ++
            [','] :: (listTokens ((w :: vs).map argumentTokens) ++ [')'] :: ts)) := by
        simp only [map_cons, listTokens, argumentTokens, append_assoc, cons_append,
          nil_append]
      rw [htokens, readOperands, hopen, if_neg Bool.false_ne_true, readType_name]
      simp only [some_bind, readValue_back hfound hid, decide_true,
        check_true, hcomma, Bool.false_eq_true, if_false, hexpect, hrest]

theorem listTokens_length : (entries : List Tokens) → (∀ ts ∈ entries, ts ≠ []) →
    entries.length ≤ (listTokens entries).length
  | [], _ => Nat.le_refl _
  | [ts], h => length_pos_iff.mpr (h ts (mem_singleton_self _))
  | ts :: next :: entries, h => by
    have hrest := listTokens_length (next :: entries) fun us hus => h us (mem_cons_of_mem _ hus)
    simp only [listTokens, length_append, length_cons, length_nil] at hrest ⊢
    omega

theorem readCallOperands_back {vs : List Value} (h : ∀ v ∈ vs, Found definitions v ∧ v.id < 2 ^ 32) :
    readCallOperands definitions (['('] :: (listTokens (vs.map argumentTokens) ++ [')'] :: ts)) =
      some (vs, ts) := by
  have hopening (ts : Tokens) : expect "(" (['('] :: ts) = some ts := rfl
  have hclosing : expect ")" ([')'] :: ts) = some ts := rfl
  have hfuel : vs.length < (listTokens (vs.map argumentTokens) ++ [')'] :: ts).length + 1 := by
    have hlength := listTokens_length (vs.map argumentTokens) (by
      intro us hus
      obtain ⟨v, -, rfl⟩ := mem_map.mp hus
      nofun)
    rw [length_map] at hlength
    rw [length_append]
    omega
  simp only [readCallOperands, hopening, readOperands_back _ vs hfuel h, hclosing,
    some_bind]

theorem readConversion_back {operand : Value} {type : Ty} (hfound : Found definitions operand)
    (hid : operand.id < 2 ^ 32) :
    readConversion definitions ([typeName operand.type] ++ valueTokens operand ++
      ["to".toList, typeName type] ++ ts) = some ((operand.type, operand, type), ts) := by
  have hto (ts : Tokens) : expect "to" ("to".toList :: ts) = some ts := rfl
  simp only [readConversion, append_assoc, cons_append, nil_append, readType_name,
    readValue_back hfound hid, hto, some_bind]

theorem parseConversion_back {fits : Ty → Ty → Bool} {opcode : Opcode} {operand : Value} {type : Ty}
    (hresult : i.hasResult = true) (hfound : Found definitions operand) (hid : operand.id < 2 ^ 32)
    (hfits : fits operand.type type = true) :
    parseConversion definitions i fits opcode ([typeName operand.type] ++ valueTokens operand ++
      ["to".toList, typeName type] ++ ts) =
        some ({ i with opcode, type, operands := [operand] }.withResult type, ts) := by
  simp only [parseConversion, hresult, readConversion_back hfound hid, hfits, decide_true,
    Bool.and_self, check_true, some_bind]

/-- What the rules make of an instruction is read back from its tokens. -/
theorem parseOperation_tokens (h : Reads definitions i i') (hi : i.operands = [])
    (hids : ∀ v ∈ definitions, v.id < 2 ^ 32) (hts : Behind ts) :
    parseOperation definitions i ([opcodeName i'.opcode] ++ operationTokens i' ++ ts) =
      some (i', ts) := by
  rw [append_assoc, singleton_append, parseOperation_name]
  have hid {v : Value} (hv : Found definitions v) : v.id < 2 ^ 32 :=
    hids v (mem_of_find?_eq_some hv)
  have hcomma (ts : Tokens) : expect "," ([','] :: ts) = some ts := rfl
  have hat (ts : Tokens) : expect "@" (['@'] :: ts) = some ts := rfl
  cases h
  case const type immediate result range int =>
    show parseConst i (typeName type :: outSigned immediate :: ts) = _
    simp [parseConst, result, int, readNumber_signed_back range]
  case fconst type immediate result range float fits short =>
    have hrange : (!(decide (type = .f32) && (decide (immediate < -2 ^ 31) ||
        decide (0 ≤ immediate) && decide (immediate > 2 ^ 32 - 1)))) = true := by
      by_cases htype : type = .f32
      · have hbounds := fits htype
        simp only [htype, decide_true, Bool.true_and, Bool.not_eq_true', Bool.or_eq_false_iff,
          Bool.and_eq_false_iff, decide_eq_false_iff_not]
        omega
      · simp only [htype, decide_false, Bool.false_and, Bool.not_false]
    have htokens : operationTokens ({ i with opcode := .fconst, type, immediate }.withResult type) =
        [typeName type, outSigned immediate] := by
      show [typeName type, outSigned immediate] ++ highTokens type _ = _
      rw [highTokens, if_neg short, append_nil]
    rw [htokens]
    show parseFConst i (typeName type :: outSigned immediate :: ts) = _
    simp only [parseFConst, result, float, readType_name, readNumber_signed_back range, hrange, short,
      if_false, check_true, some_bind]
  case fconstHigh immediate immediateHigh result range rangeHigh =>
    show parseFConst i (typeName .f128 :: outSigned immediate :: [','] :: outSigned immediateHigh :: ts) = _
    have hfloat : check Ty.f128.isFloat = some () := rfl
    simp [parseFConst, result, hfloat, readNumber_signed_back range, readNumber_signed_back rangeHigh,
      hcomma]
  case «local» type immediate alignment result range positive aligned =>
    have hnext : is (alignmentTokens alignment ++ ts) "," = false := by
      unfold alignmentTokens
      split
      · rfl
      · exact hts.comma
    show parseLocal i ([typeName type] ++ countTokens immediate ++ alignmentTokens alignment ++ ts) = _
    simp [parseLocal, result, readElementCount_back range positive hnext,
      readOptionalAlignment_back aligned hts.align]
  case load type address alignment result found pointer type_ne aligned =>
    show parseLoad definitions i
      (typeName type :: [','] :: (valueTokens address ++ alignmentTokens alignment) ++ ts) = _
    simp [parseLoad, result, hcomma, readValue_back found (hid found), pointer, type_ne,
      readOptionalAlignment_back aligned hts.align]
  case store type value address alignment result found foundAddress type_ne same pointer aligned =>
    subst same
    show parseStore definitions i
      ([typeName value.type] ++ (valueTokens value ++ [[',']] ++ valueTokens address) ++
        alignmentTokens alignment ++ ts) = _
    simp [parseStore, result, pointer, type_ne,
      readBinaryOperands_back found foundAddress (hid found) (hid foundAddress),
      readOptionalAlignment_back aligned hts.align]
  case mov type operand result found same type_ne =>
    subst same
    show parseMov definitions i ([typeName operand.type] ++ valueTokens operand ++ [] ++ ts) = _
    simp [parseMov, result, type_ne, readValue_back found (hid found)]
  case binary opcode type left right op result found foundRight int same sameRight =>
    have hshift : (if opcode.isShift then right.type.isInteger else decide (right.type = type)) = true := by
      split at sameRight
      case isTrue hop => rw [if_pos hop, sameRight]
      case isFalse hop => rw [if_neg hop, decide_eq_true sameRight]
    have hbinary : parseBinary definitions i opcode
        ([typeName type] ++ (valueTokens left ++ [[',']] ++ valueTokens right) ++ ts) =
        some ({ i with opcode, type, operands := [left, right] }.withResult type, ts) := by
      simp [parseBinary, result, int, same, hshift,
        readBinaryOperands_back found foundRight (hid found) (hid foundRight)]
    simp only [mem_cons, not_mem_nil, or_false] at op
    rcases op with rfl | rfl | rfl | rfl | rfl | rfl | rfl | rfl | rfl | rfl | rfl | rfl | rfl <;>
      exact hbinary
  case floatBinary opcode type left right op result found foundRight float same sameRight =>
    have hbinary : parseFloatBinary definitions i opcode
        ([typeName type] ++ (valueTokens left ++ [[',']] ++ valueTokens right) ++ ts) =
        some ({ i with opcode, type, operands := [left, right] }.withResult type, ts) := by
      simp [parseFloatBinary, result, float, same, sameRight,
        readBinaryOperands_back found foundRight (hid found) (hid foundRight)]
    simp only [mem_cons, not_mem_nil, or_false] at op
    rcases op with rfl | rfl | rfl | rfl <;> exact hbinary
  case ptradd type left right result found foundRight pointer int =>
    show parsePtrAdd definitions i
      ([typeName type] ++ (valueTokens left ++ [[',']] ++ valueTokens right) ++ ts) = _
    simp [parsePtrAdd, result, pointer, int,
      readBinaryOperands_back found foundRight (hid found) (hid foundRight)]
  case icmp type left right predicate result found foundRight comparable same sameRight =>
    have hcomparable : (type.isInteger || decide (type = .ptr)) = true := by
      rcases comparable with int | ⟨pointer, -⟩
      · rw [int, Bool.true_or]
      · rw [decide_eq_true pointer, Bool.or_true]
    have hpointer : (!(decide (type = .ptr) && decide (predicate ≠ .eq) &&
        decide (predicate ≠ .ne))) = true := by
      rcases comparable with int | ⟨-, rfl | rfl⟩
      · have hne : type ≠ .ptr := by
          rintro rfl
          cases int
        rw [decide_eq_false hne]
        rfl
      · cases type <;> rfl
      · cases type <;> rfl
    show parseICmp definitions i ([predicateName predicate, typeName type] ++
      (valueTokens left ++ [[',']] ++ valueTokens right) ++ ts) = _
    simp only [parseICmp, result, readPredicate_name, readType_name, hcomparable, hpointer, same,
      sameRight, decide_true, Bool.and_self, check_true, append_assoc, cons_append,
      nil_append, readBinaryOperands_back found foundRight (hid found) (hid foundRight),
      some_bind]
  case fcmp type left right floatPredicate result found foundRight float same sameRight =>
    show parseFCmp definitions i ([floatPredicateName floatPredicate, typeName type] ++
      (valueTokens left ++ [[',']] ++ valueTokens right) ++ ts) = _
    simp [parseFCmp, result, readFloatPredicate_name, float, same, sameRight,
      readBinaryOperands_back found foundRight (hid found) (hid foundRight)]
  case integerConversion opcode type operand op result found =>
    simp only [mem_cons, not_mem_nil, or_false] at op
    rcases op with rfl | rfl | rfl <;>
      exact @parseConversion_back _ _ _ (fun _ _ => true) _ _ _ result found (hid found) rfl
  case pointerConversion opcode type operand op result found fits =>
    simp only [mem_cons, not_mem_nil, or_false] at op
    rcases op with rfl | rfl <;> exact parseConversion_back result found (hid found) fits
  case floatConversion opcode type operand op result found fits =>
    simp only [mem_cons, not_mem_nil, or_false] at op
    rcases op with rfl | rfl | rfl | rfl | rfl | rfl <;>
      exact parseConversion_back result found (hid found) fits
  case globaladdr name result named =>
    show parseGlobalAddr i (['@'] :: name :: ts) = _
    simp [parseGlobalAddr, result, hat, readName_back named]
  case call type callee operands named found result =>
    show parseCall definitions i (typeName type :: ['@'] :: callee :: ['('] ::
      listTokens (operands.map argumentTokens) ++ [[')']] ++ ts) = _
    have hoperands := @readCallOperands_back _ ts _ fun v hv => ⟨found v hv, hid (found v hv)⟩
    have hcheck : check (decide (decide (type = .void) ≠ i.hasResult)) = some () := by
      rw [result]
      cases type <;> rfl
    simp only [parseCall, readType_name, hat, readName_back named, append_assoc,
      cons_append, nil_append, hoperands, hcheck, some_bind]
  case jmp target result named =>
    have hmark (ts : Tokens) : is (['^'] :: ts) "^" = true := rfl
    have htokens : operationTokens { i with opcode := .jmp, target } = blockNameTokens target := by
      show (if i.operands.length ≠ 0 then _ else _) = _
      rw [hi]
      rfl
    rw [htokens]
    have hname : readBlockName (['^'] :: target :: ts) = some (target, ts) := readBlockName_back named
    show parseJmp definitions i (['^'] :: target :: ts) = _
    simp [parseJmp, result, hmark, hname]
  case conditionalJmp condition target targetFalse result found bit named namedFalse =>
    have hmark (ts : Tokens) : is ("i1".toList :: ts) "^" = false := rfl
    have htype (ts : Tokens) : readType ("i1".toList :: ts) = some (.i1, ts) := rfl
    have hname {name : Text} (h : name ≠ []) (ts : Tokens) :
        readBlockName (['^'] :: name :: ts) = some (name, ts) := readBlockName_back h
    show parseJmp definitions i (["i1".toList] ++ valueTokens condition ++ [[',']] ++
      [['^'], target] ++ [[',']] ++ [['^'], targetFalse] ++ ts) = _
    simp only [parseJmp, result, Bool.not_false, check_true, hmark, Bool.false_eq_true, if_false,
      htype, bit, decide_true, append_assoc, cons_append, nil_append,
      readValue_back found (hid found), hcomma, hname named, hname namedFalse, some_bind]
  case retVoid result =>
    show parseRet definitions i (typeName .void :: ts) = _
    simp [parseRet, result]
  case ret type operand result type_ne found =>
    have htokens : operationTokens { i with opcode := .ret, type, operands := [operand] } =
        [typeName type] ++ valueTokens operand := by
      show [typeName type] ++ (if type ≠ .void then valueTokens operand else []) = _
      rw [if_pos type_ne]
    rw [htokens]
    simp [operationForm, parseRet, result, type_ne, readValue_back found (hid found)]

end Unisym.Lango
